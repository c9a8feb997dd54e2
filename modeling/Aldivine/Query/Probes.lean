import Aldivine.Foundation.Execution
import Aldivine.Foundation.Table
import Aldivine.Foundation.Utf8
import Aldivine.Foundation.Windows
import Aldivine.Foundation.Wire
import Aldivine.Query.Status
import Mathlib.Algebra.Order.BigOperators.Group.List

namespace Aldivine.Query.Probes

open Foundation.Execution Foundation.Table Foundation.Text Foundation.Utf8 Foundation.Windows
open Foundation.Wire Status

def queryMagic : List UInt8 := utf8 "ALDQ"

def queryVersion : UInt8 := 1

structure QueryProbe where
  magic : List UInt8
  magic_length : magic.length = 4
  version : UInt8
  nonce : UInt32
deriving DecidableEq

namespace QueryProbe

def new (nonce : UInt32) : QueryProbe := ⟨queryMagic, by decide, queryVersion, nonce⟩

def encode (probe : QueryProbe) : List UInt8 :=
  probe.magic ++ probe.version :: toLE 4 probe.nonce.toNat

def decode : List UInt8 → Except QueryError QueryProbe
  | [b0, b1, b2, b3, b4, b5, b6, b7, b8] =>
    if [b0, b1, b2, b3] ≠ queryMagic then .error .badMagic
    else if b4 ≠ queryVersion then .error (.unsupportedVersion b4)
    else .ok ⟨[b0, b1, b2, b3], rfl, b4, UInt32.ofNat (ofLE [b5, b6, b7, b8])⟩
  | bytes => .error (.badLength bytes.length 9)

end QueryProbe

/-- The start of the window of a source, and its hits since. -/
structure QueryRateLimiter (ι : Type) where
  window : ℕ
  maxPerWindow : ℕ
  hits : AList (fun _ : ι ↦ ℕ × ℕ)

variable {ι : Type} [DecidableEq ι]

namespace QueryRateLimiter

omit [DecidableEq ι] in
def new (maxPerWindow window : ℕ) : QueryRateLimiter ι := ⟨window, maxPerWindow, ∅⟩

def check (limiter : QueryRateLimiter ι) (src : ι) (now : ℕ) :
    Except QueryError (QueryRateLimiter ι) :=
  match limiter.hits.lookup src with
  | some (start, count) =>
    if now - start < limiter.window then
      if limiter.maxPerWindow ≤ count then .error .rateLimited
      else .ok { limiter with hits := limiter.hits.insert src (start, count + 1) }
    else .ok { limiter with hits := limiter.hits.insert src (now, 1) }
  | none => .ok { limiter with hits := limiter.hits.insert src (now, 1) }

omit [DecidableEq ι] in
def gc (limiter : QueryRateLimiter ι) (now : ℕ) : QueryRateLimiter ι :=
  { limiter with
    hits := retain (fun _ bucket ↦ decide (now - bucket.1 < limiter.window)) limiter.hits }

end QueryRateLimiter

def viewFor (status : ServerStatus) (nonce : UInt32) : ServerStatus :=
  if status.listed then { status with nonce := nonce }
  else { status with nonce := nonce, players := [], projectDesc := none, extra := [] }

section Answering

variable (toJson : ServerStatus → Except String String)

def handleQueryProbe (status : ServerStatus) (limiter : QueryRateLimiter ι) (src : ι)
    (bytes : List UInt8) (now : ℕ) :
    QueryRateLimiter ι × Except QueryError (List UInt8) :=
  match QueryProbe.decode bytes with
  | .error e => (limiter, .error e)
  | .ok probe =>
    match limiter.check src now with
    | .error e => (limiter, .error e)
    | .ok limiter => (limiter, (viewFor status probe.nonce).toNativeJson toJson |>.map utf8)

inductive Event (ι : Type)
  | probe (status : ServerStatus) (src : ι) (bytes : List UInt8) (now : ℕ)
  | gc (now : ℕ)

def Event.time : Event ι → ℕ
  | .probe _ _ _ now | .gc now => now

def step (limiter : QueryRateLimiter ι) :
    Event ι → QueryRateLimiter ι × Option (Except QueryError (List UInt8))
  | .probe status src bytes now =>
    ((handleQueryProbe toJson status limiter src bytes now).1,
      some (handleQueryProbe toJson status limiter src bytes now).2)
  | .gc now => (limiter.gc now, none)

end Answering

def sentTo (src : ι) : Event ι × Option (Except QueryError (List UInt8)) →
    Option (ℕ × List UInt8)
  | (.probe _ src' _ now, some (.ok reply)) => if src' = src then some (now, reply) else none
  | _ => none

def sent (toJson : ServerStatus → Except String String) (limiter : QueryRateLimiter ι)
    (events : List (Event ι)) (src : ι) (a b : ℕ) : List (ℕ × List UInt8) :=
  ((answers (step toJson) limiter events).filterMap (sentTo src)).filter
    (fun x ↦ decide (a ≤ x.1 ∧ x.1 < b))

/-- The view is the cut status with the nonce of the probe and without some of its parts: without the
players, the description and the extras in any case if the server is not listed. -/
def Shown (status : ServerStatus) (nonce : UInt32) (view : ServerStatus) : Prop :=
  ∃ parts : List Part, view = parts.foldl ServerStatus.clear { status.cut with nonce := nonce } ∧
    (status.listed = false → [.players, .desc, .extra] ⊆ parts)

variable {toJson : ServerStatus → Except String String} {status cur view : ServerStatus}
  {bytes reply : List UInt8} {probe : QueryProbe} {limiter limiter' : QueryRateLimiter ι}
  {src : ι} {now last window most : ℕ} {hits : List ℕ} {text : String}

theorem decode_eq_ok :
    QueryProbe.decode bytes = .ok probe ↔
      bytes = probe.encode ∧ probe.magic = queryMagic ∧ probe.version = queryVersion := by
  constructor
  · intro h
    unfold QueryProbe.decode at h
    split at h
    · rename_i b0 b1 b2 b3 b4 b5 b6 b7 b8
      split_ifs at h with hmagic hversion
      rw [ne_eq, not_not] at hmagic hversion
      cases h
      have hlt : ofLE [b5, b6, b7, b8] < 2 ^ 32 := by simpa using ofLE_lt [b5, b6, b7, b8]
      have hnonce : (UInt32.ofNat (ofLE [b5, b6, b7, b8])).toNat = ofLE [b5, b6, b7, b8] :=
        UInt32.toNat_ofNat_of_lt' hlt
      refine ⟨?_, hmagic, hversion⟩
      rw [QueryProbe.encode, hnonce, toLE_ofLE (k := 4) rfl]
      rfl
    · cases h
  · rintro ⟨rfl, hmagic, hversion⟩
    obtain ⟨magic, hlength, version, nonce⟩ := probe
    have hnonce := ofLE_toLE_of_lt (k := 4) nonce.toNat_lt
    have hsize := length_toLE 4 nonce.toNat
    dsimp only at hmagic hversion
    rw [QueryProbe.encode]
    dsimp only
    generalize toLE 4 nonce.toNat = low at hnonce hsize ⊢
    match magic, low, hlength, hsize with
    | [b0, b1, b2, b3], [b5, b6, b7, b8], _, _ =>
      rw [List.cons_append, List.cons_append, List.cons_append, List.cons_append, List.nil_append,
        QueryProbe.decode, if_neg (not_not.mpr hmagic), if_neg (not_not.mpr hversion), hnonce,
        UInt32.ofNat_toNat]

section Views

theorem shedding_eq_ok {shedIcon shedPlayers shedExtra : Bool}
    (h : shedding toJson cur shedIcon shedPlayers shedExtra = .ok text) :
    ∃ parts : List Part, toJson (parts.foldl ServerStatus.clear cur) = .ok text ∧ Fits text := by
  have hrender {s : ServerStatus} {text : String} (h : renderJson toJson s = .ok text) :
      toJson s = .ok text := by
    unfold renderJson at h
    cases hs : toJson s with
    | error e => simp [hs, Except.mapError] at h
    | ok t => simpa [hs, Except.mapError] using h
  induction cur, shedIcon, shedPlayers, shedExtra using shedding.induct with
  | _ cur shedIcon shedPlayers shedExtra hicon hplayers hextra =>
    rw [shedding] at h
    cases hs : renderJson toJson cur with
    | error e =>
      rw [hs] at h
      cases h
    | ok s =>
      simp only [hs, bind, Except.bind, pure, Except.pure] at h
      split_ifs at h with hfits hi hp he
      · cases h
        exact ⟨[], hrender hs, hfits⟩
      · obtain ⟨parts, hparts⟩ := hicon hi h
        exact ⟨.icon :: parts, hparts⟩
      · obtain ⟨parts, hparts⟩ := hplayers hi hp h
        exact ⟨.players :: parts, hparts⟩
      · obtain ⟨parts, hparts⟩ := hextra hi hp he h
        exact ⟨.extra :: parts, hparts⟩
      · cases hd : renderJson toJson (cur.clear .desc) with
        | error e =>
          rw [ServerStatus.clear] at hd
          rw [hd] at h
          cases h
        | ok t =>
          refine ⟨[.desc], ?_⟩
          rw [ServerStatus.clear] at hd
          simp only [hd] at h
          split_ifs at h with hlast
          · cases h
            exact ⟨hrender hd, hlast⟩

theorem shown_cut (status : ServerStatus) (nonce : UInt32) :
    Shown status nonce (viewFor status nonce).cut := by
  unfold viewFor
  split
  · rename_i hlisted
    refine ⟨[], rfl, fun hunlisted ↦ ?_⟩
    rw [hlisted] at hunlisted
    cases hunlisted
  · exact ⟨[.players, .desc, .extra], rfl, fun _ ↦ List.Subset.refl _⟩

theorem Shown.foldl {nonce : UInt32} (h : Shown status nonce view) (parts : List Part) :
    Shown status nonce (parts.foldl ServerStatus.clear view) := by
  obtain ⟨cleared, rfl, hunlisted⟩ := h
  refine ⟨cleared ++ parts, (List.foldl_append ..).symm, fun hlisted ↦ ?_⟩
  exact List.subset_append_of_subset_left _ (hunlisted hlisted)

end Views

theorem length_utf8 (text : String) : (utf8 text).length = text.utf8ByteSize := by
  rw [utf8, Array.length_toList]
  rfl

theorem handleQueryProbe_eq_ok
    (h : (handleQueryProbe toJson status limiter src bytes now).2 = .ok reply) :
    limiter.check src now = .ok (handleQueryProbe toJson status limiter src bytes now).1 ∧
      ∃ nonce view text, bytes = (QueryProbe.new nonce).encode ∧ Shown status nonce view ∧
        toJson view = .ok text ∧ Fits text ∧ reply = utf8 text := by
  unfold handleQueryProbe at h ⊢
  split at h
  · cases h
  · rename_i probe hdecode
    split at h
    · cases h
    · rename_i limiter' hcheck
      rw [hcheck]
      refine ⟨rfl, ?_⟩
      dsimp only at h
      obtain ⟨hbytes, hmagic, hversion⟩ := decode_eq_ok.mp hdecode
      cases hjson : (viewFor status probe.nonce).toNativeJson toJson with
      | error e =>
        rw [hjson] at h
        cases h
      | ok text =>
        rw [hjson] at h
        cases h
        obtain ⟨parts, hview, hfits⟩ := shedding_eq_ok hjson
        refine ⟨probe.nonce, _, text, ?_, (shown_cut status probe.nonce).foldl parts, hview, hfits,
          rfl⟩
        rw [hbytes, QueryProbe.encode, QueryProbe.encode, hmagic, hversion]
        rfl

section Limiting

/-- What is kept of the hits of a source, all of them before `last`. -/
def Kept (limiter : QueryRateLimiter ι) (src : ι) (hits : List ℕ) (last : ℕ) : Prop :=
  match limiter.hits.lookup src with
  | some (start, count) => start ≤ last ∧
      Windowed limiter.window (max 1 limiter.maxPerWindow) hits start count
  | none => hits = [] ∨ ∃ start count, start + limiter.window ≤ last ∧
      Windowed limiter.window (max 1 limiter.maxPerWindow) hits start count

theorem kept_some {start count : ℕ} (hlookup : limiter.hits.lookup src = some (start, count)) :
    Kept limiter src hits last ↔ start ≤ last ∧
      Windowed limiter.window (max 1 limiter.maxPerWindow) hits start count := by
  rw [Kept, hlookup]

theorem kept_none (hlookup : limiter.hits.lookup src = none) :
    Kept limiter src hits last ↔ hits = [] ∨ ∃ start count, start + limiter.window ≤ last ∧
      Windowed limiter.window (max 1 limiter.maxPerWindow) hits start count := by
  rw [Kept, hlookup]

theorem Kept.later (h : Kept limiter src hits last) (hle : last ≤ now) :
    Kept limiter src hits now := by
  cases hlookup : limiter.hits.lookup src with
  | some bucket =>
    obtain ⟨hstart, hwin⟩ := (kept_some hlookup).mp h
    exact (kept_some hlookup).mpr ⟨hstart.trans hle, hwin⟩
  | none =>
    rw [kept_none hlookup] at h ⊢
    exact h.imp_right (fun ⟨start, count, hstart, hwin⟩ ↦ ⟨start, count, hstart.trans hle, hwin⟩)

theorem Kept.total (h : Kept limiter src hits last) (a : ℕ) :
    hits.countP (fun t ↦ decide (a ≤ t ∧ t < a + limiter.window)) ≤
      2 * max 1 limiter.maxPerWindow := by
  cases hlookup : limiter.hits.lookup src with
  | some bucket => exact ((kept_some hlookup).mp h).2.total a
  | none =>
    obtain rfl | ⟨start, count, -, hwin⟩ := (kept_none hlookup).mp h
    · exact Nat.zero_le _
    · exact hwin.total a

theorem check_cases (h : limiter.check src now = .ok limiter') :
    (∃ start count, limiter.hits.lookup src = some (start, count) ∧
        now - start < limiter.window ∧ count < limiter.maxPerWindow ∧
        limiter' = { limiter with hits := limiter.hits.insert src (start, count + 1) }) ∨
      ((∀ bucket, limiter.hits.lookup src = some bucket → limiter.window ≤ now - bucket.1) ∧
        limiter' = { limiter with hits := limiter.hits.insert src (now, 1) }) := by
  unfold QueryRateLimiter.check at h
  split at h
  · rename_i start count hlookup
    split_ifs at h with hwithin hfull
    · cases h
      exact .inl ⟨start, count, hlookup, hwithin, not_le.mp hfull, rfl⟩
    · cases h
      refine .inr ⟨fun bucket hbucket ↦ ?_, rfl⟩
      cases hlookup.symm.trans hbucket
      exact not_lt.mp hwithin
  · rename_i hlookup
    cases h
    refine .inr ⟨fun bucket hbucket ↦ ?_, rfl⟩
    cases hlookup.symm.trans hbucket

theorem check_limits (h : limiter.check src now = .ok limiter') :
    limiter'.window = limiter.window ∧ limiter'.maxPerWindow = limiter.maxPerWindow := by
  obtain ⟨_, _, _, _, _, rfl⟩ | ⟨_, rfl⟩ := check_cases h
  · exact ⟨rfl, rfl⟩
  · exact ⟨rfl, rfl⟩

theorem kept_check (hwindow : 0 < limiter.window) (h : Kept limiter src hits now)
    (hcheck : limiter.check src now = .ok limiter') : Kept limiter' src (hits ++ [now]) now := by
  obtain ⟨start, count, hlookup, hwithin, hcount, rfl⟩ | ⟨hover, rfl⟩ := check_cases hcheck
  · obtain ⟨hstart, hwin⟩ := (kept_some hlookup).mp h
    refine (kept_some (AList.lookup_insert _)).mpr ⟨hstart, ?_⟩
    exact hwin.again hstart (by omega) (by omega)
  · refine (kept_some (AList.lookup_insert _)).mpr ⟨le_rfl, ?_⟩
    cases hlookup : limiter.hits.lookup src with
    | some bucket =>
      have hwin := ((kept_some hlookup).mp h).2
      have hend := hover bucket hlookup
      exact hwin.next hwindow (le_max_left _ _) (by omega)
    | none =>
      obtain rfl | ⟨start, count, hstart, hwin⟩ := (kept_none hlookup).mp h
      · exact windowed_first hwindow (le_max_left _ _)
      · exact hwin.next hwindow (le_max_left _ _) hstart

theorem kept_other {src' : ι} (hne : src' ≠ src) (h : Kept limiter src hits last)
    (hcheck : limiter.check src' now = .ok limiter') : Kept limiter' src hits last := by
  have hlookup (bucket : ℕ × ℕ) : (limiter.hits.insert src' bucket).lookup src =
      limiter.hits.lookup src := AList.lookup_insert_ne (Ne.symm hne)
  obtain ⟨_, _, _, _, _, rfl⟩ | ⟨_, rfl⟩ := check_cases hcheck
  · unfold Kept
    rw [hlookup]
    exact h
  · unfold Kept
    rw [hlookup]
    exact h

theorem kept_gc (h : Kept limiter src hits now) : Kept (limiter.gc now) src hits now := by
  have hgc := lookup_retain (k := src)
    (fun _ bucket ↦ decide (now - bucket.1 < limiter.window)) limiter.hits
  cases hlookup : limiter.hits.lookup src with
  | none =>
    rw [hlookup] at hgc
    exact (kept_none hgc).mpr ((kept_none hlookup).mp h)
  | some bucket =>
    obtain ⟨start, count⟩ := bucket
    have hkept := (kept_some hlookup).mp h
    rw [hlookup, Option.filter_some] at hgc
    split_ifs at hgc with hwithin
    · exact (kept_some hgc).mpr hkept
    · rw [decide_eq_true_eq] at hwithin
      exact (kept_none hgc).mpr (.inr ⟨start, count, by dsimp only [QueryRateLimiter.gc]; omega,
        hkept.2⟩)

theorem limits_step (limiter : QueryRateLimiter ι) (event : Event ι) :
    (step toJson limiter event).1.window = limiter.window ∧
      (step toJson limiter event).1.maxPerWindow = limiter.maxPerWindow := by
  cases event with
  | gc now => exact ⟨rfl, rfl⟩
  | probe status src bytes now =>
    simp only [step, handleQueryProbe]
    split
    · exact ⟨rfl, rfl⟩
    · split
      · exact ⟨rfl, rfl⟩
      · rename_i hcheck
        exact check_limits hcheck

theorem limits_run (toJson : ServerStatus → Except String String) (window most : ℕ)
    (events : List (Event ι)) :
    (run (step toJson) (.new most window) events).window = window ∧
      (run (step toJson) (.new most window) events).maxPerWindow = most :=
  invariant_all (I := fun limiter ↦ limiter.window = window ∧ limiter.maxPerWindow = most)
    (fun limiter event h ↦ ⟨(limits_step limiter event).1.trans h.1,
      (limits_step limiter event).2.trans h.2⟩) ⟨rfl, rfl⟩ events

/-- An event leaves the bucket of a source as it is or counts one hit for it, which every reply to
the source is. -/
theorem kept_step (toJson : ServerStatus → Except String String)
    (hwindow : 0 < limiter.window) (event : Event ι) (h : Kept limiter src hits event.time) :
    (Kept (step toJson limiter event).1 src hits event.time ∧
        sentTo src (event, (step toJson limiter event).2) = none) ∨
      (Kept (step toJson limiter event).1 src (hits ++ [event.time]) event.time ∧
        ∀ x, sentTo src (event, (step toJson limiter event).2) = some x → x.1 = event.time) := by
  cases event with
  | gc now => exact .inl ⟨kept_gc h, rfl⟩
  | probe status src' bytes now =>
    simp only [step, handleQueryProbe]
    split
    · exact .inl ⟨h, rfl⟩
    · split
      · exact .inl ⟨h, rfl⟩
      · rename_i limiter' hcheck
        by_cases hsrc : src' = src
        · subst hsrc
          refine .inr ⟨kept_check hwindow h hcheck, fun x hx ↦ ?_⟩
          unfold sentTo at hx
          split at hx
          · rename_i heq
            simp only [Prod.mk.injEq, Event.probe.injEq] at heq
            rw [if_pos heq.1.2.1.symm] at hx
            cases hx
            exact heq.1.2.2.2.symm
          · cases hx
        · refine .inl ⟨kept_other hsrc h hcheck, ?_⟩
          unfold sentTo
          split
          · rename_i heq
            simp only [Prod.mk.injEq, Event.probe.injEq] at heq
            rw [← heq.1.2.1, if_neg hsrc]
          · rfl

/-- The bucket of a source keeps account of hits that every reply to it is one of. -/
theorem kept_run (toJson : ServerStatus → Except String String) (hwindow : 0 < window) (most : ℕ)
    (events : List (Event ι)) (hordered : events.Pairwise (fun e e' ↦ e.time ≤ e'.time)) (src : ι) :
    ∃ hits, (∀ now, (∀ e ∈ events, e.time ≤ now) →
        Kept (run (step toJson) (.new most window) events) src hits now) ∧
      (((answers (step toJson) (.new most window) events).filterMap (sentTo src)).map
        Prod.fst).Sublist hits := by
  induction events using List.reverseRecOn with
  | nil => exact ⟨[], fun now _ ↦ (kept_none rfl).mpr (.inl rfl), List.Sublist.refl _⟩
  | append_singleton events event ih =>
    obtain ⟨hbefore, -, hlast⟩ := List.pairwise_append.mp hordered
    obtain ⟨hits, hkept, hsub⟩ := ih hbefore
    have hnow := hkept event.time (fun e he ↦ hlast e he event (List.mem_singleton_self _))
    have hlimits := limits_run toJson window most events
    have hstep := kept_step toJson (hlimits.1.symm ▸ hwindow) event hnow
    have hlater {now : ℕ} (h : ∀ e ∈ events ++ [event], e.time ≤ now) : event.time ≤ now :=
      h event (List.mem_append_right _ (List.mem_singleton_self _))
    simp only [run_concat, answers_concat, List.filterMap_append, List.map_append]
    obtain ⟨hsame, hnone⟩ | ⟨hmore, hsome⟩ := hstep
    · refine ⟨hits, fun now h ↦ hsame.later (hlater h), ?_⟩
      simpa [hnone] using hsub
    · refine ⟨hits ++ [event.time], fun now h ↦ hmore.later (hlater h), hsub.append ?_⟩
      cases hsent : sentTo src (event, (step toJson (run (step toJson) (.new most window) events)
          event).2) with
      | none => simp [hsent]
      | some x => simp [hsent, hsome x hsent]

end Limiting

theorem length_sent_le (toJson : ServerStatus → Except String String) (most window : ℕ)
    (events : List (Event ι)) (hordered : events.Pairwise (fun e e' ↦ e.time ≤ e'.time)) (src : ι)
    (a : ℕ) :
    (sent toJson (.new most window) events src a (a + window)).length ≤ 2 * max 1 most := by
  rw [sent, ← List.countP_eq_length_filter]
  rcases Nat.eq_zero_or_pos window with rfl | hwindow
  · rw [List.countP_eq_zero.mpr (fun x _ ↦ by simp)]
    exact Nat.zero_le _
  · obtain ⟨hits, hkept, hsub⟩ := kept_run toJson hwindow most events hordered src
    have hlimits := limits_run toJson window most events
    have hlast (e : Event ι) (he : e ∈ events) : e.time ≤ (events.map Event.time).sum :=
      List.le_sum_of_mem (List.mem_map_of_mem he)
    have htotal := (hkept _ hlast).total a
    rw [hlimits.1, hlimits.2] at htotal
    have hcount := hsub.countP_le (p := fun t ↦ decide (a ≤ t ∧ t < a + window))
    rw [List.countP_map] at hcount
    exact hcount.trans htotal

theorem reply_of_answers {events : List (Event ι)}
    (h : (Event.probe status src bytes now, some (.ok reply)) ∈
      answers (step toJson) limiter events) :
    ∃ limiter : QueryRateLimiter ι,
      (handleQueryProbe toJson status limiter src bytes now).2 = .ok reply := by
  obtain ⟨⟨limiter, event⟩, -, heq⟩ := List.mem_map.mp h
  obtain ⟨rfl, hreply⟩ := Prod.mk.injEq .. ▸ heq
  exact ⟨limiter, Option.some.inj hreply⟩

theorem mem_sent {events : List (Event ι)} {a b : ℕ} {x : ℕ × List UInt8}
    (h : x ∈ sent toJson limiter events src a b) :
    ∃ status bytes, (Event.probe status src bytes x.1, some (.ok x.2)) ∈
      answers (step toJson) limiter events := by
  obtain ⟨⟨event, answer⟩, hmem, hsent⟩ := List.mem_filterMap.mp (List.mem_filter.mp h).1
  unfold sentTo at hsent
  split at hsent
  · rename_i status src' bytes now reply heq
    split_ifs at hsent with hsrc
    cases hsent
    cases heq
    subst hsrc
    exact ⟨status, bytes, hmem⟩
  · cases hsent

/-- In no time as long as the window is a source sent more than twice the replies that the limiter
allows in one, and each of them has at most `maxResponseBytes` bytes, rendered from what its sender
may be shown of the status. -/
theorem replies_bounded (toJson : ServerStatus → Except String String) (most window : ℕ)
    (events : List (Event ι)) (hordered : events.Pairwise (fun e e' ↦ e.time ≤ e'.time)) :
    (∀ src a, (sent toJson (.new most window) events src a (a + window)).length ≤ 2 * max 1 most ∧
      ((sent toJson (.new most window) events src a (a + window)).map (·.2.length)).sum ≤
        2 * max 1 most * maxResponseBytes) ∧
      ∀ status src bytes now reply,
        (Event.probe status src bytes now, some (.ok reply)) ∈
          answers (step toJson) (.new most window) events →
        ∃ nonce view text, bytes = (QueryProbe.new nonce).encode ∧ Shown status nonce view ∧
          toJson view = .ok text ∧ Fits text ∧ reply = utf8 text := by
  refine ⟨fun src a ↦ ?_, fun status src bytes now reply h ↦ ?_⟩
  · have hlength := length_sent_le toJson most window events hordered src a
    refine ⟨hlength, ?_⟩
    calc ((sent toJson (.new most window) events src a (a + window)).map (·.2.length)).sum
        ≤ ((sent toJson (.new most window) events src a (a + window)).map (·.2.length)).length •
            maxResponseBytes := by
          refine List.sum_le_card_nsmul _ _ (fun n hn ↦ ?_)
          obtain ⟨x, hx, rfl⟩ := List.mem_map.mp hn
          obtain ⟨status, bytes, hmem⟩ := mem_sent hx
          obtain ⟨_, hreply⟩ := reply_of_answers hmem
          obtain ⟨-, _, _, text, -, -, -, hfits, heq⟩ := handleQueryProbe_eq_ok hreply
          rw [heq, length_utf8]
          exact hfits
      _ ≤ 2 * max 1 most * maxResponseBytes := by
          rw [List.length_map, Nat.nsmul_eq_mul]
          exact Nat.mul_le_mul_right _ hlength
  · obtain ⟨_, hreply⟩ := reply_of_answers h
    exact (handleQueryProbe_eq_ok hreply).2

/-- The third probe within ten units is not answered, and the bucket is not collected early. -/
theorem replies_bounded_to_seven :
    (sent (fun s ↦ .ok s.toJson) (.new 1 10) [.probe (sample none) 7 (QueryProbe.new 5).encode 4,
      .probe (sample none) 7 (QueryProbe.new 6).encode 9, .gc 12,
      .probe (sample none) 7 (QueryProbe.new 6).encode 14] 7 4 (4 + 10)).length ≤ 2 * max 1 1 :=
  ((replies_bounded (fun s ↦ .ok s.toJson) 1 10 [.probe (sample none) 7 (QueryProbe.new 5).encode 4,
      .probe (sample none) 7 (QueryProbe.new 6).encode 9, .gc 12,
      .probe (sample none) 7 (QueryProbe.new 6).encode 14]
    (by simp [Event.time])).1 7 4).1

end Aldivine.Query.Probes

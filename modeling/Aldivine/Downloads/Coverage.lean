import Aldivine.Downloads.Model
import Aldivine.Foundation.Execution
import Aldivine.Foundation.Ascending

namespace Aldivine.Downloads.Coverage

open Foundation.Execution Foundation.Runs Model

def brings (i : ℕ) (x : Call × Except DownloadError Unit) : Bool :=
  x.2.isOk && decide (x.1.offset.toNat ≤ i) && decide (i < x.1.offset.toNat + x.1.data.length)

def coveredBy (history : List (Call × Except DownloadError Unit)) (i : ℕ) : Bool :=
  history.any (brings i)

def Agrees (file : List UInt8) (call : Call) : Prop :=
  call.data <+: file.drop call.offset.toNat

section Writing

variable {pos fresh : ℕ} {data bytes : List UInt8} {covered : List Bool}

theorem length_writeBytes :
    (writeBytes pos data (bytes, covered, fresh)).1.length = bytes.length := by
  induction data generalizing pos bytes covered fresh with
  | nil => rfl
  | cons byte data ih => rw [writeBytes, ih, List.length_set]

theorem length_covered :
    (writeBytes pos data (bytes, covered, fresh)).2.1.length = covered.length := by
  induction data generalizing pos bytes covered fresh with
  | nil => rfl
  | cons byte data ih => rw [writeBytes, ih, List.length_set]

theorem bytes_writeBytes (hle : pos + data.length ≤ bytes.length) (i : ℕ) :
    (writeBytes pos data (bytes, covered, fresh)).1[i]? =
      if pos ≤ i ∧ i < pos + data.length then data[i - pos]? else bytes[i]? := by
  induction data generalizing pos bytes covered fresh with
  | nil =>
    rw [if_neg (by rw [List.length_nil]; omega)]
    rfl
  | cons byte data ih =>
    rw [List.length_cons] at hle ⊢
    rw [writeBytes, ih (by rw [List.length_set]; omega)]
    rcases Nat.lt_trichotomy pos i with hlt | rfl | hgt
    · obtain ⟨k, rfl⟩ := Nat.exists_eq_add_of_lt hlt
      rw [List.getElem?_set_ne (by omega), show pos + k + 1 - pos = k + 1 by omega,
        List.getElem?_cons_succ, show pos + k + 1 - (pos + 1) = k by omega]
      exact if_congr (by omega) rfl rfl
    · rw [if_neg (by omega), if_pos (by omega), Nat.sub_self, List.getElem?_set_self (by omega)]
      rfl
    · rw [if_neg (by omega), if_neg (by omega), List.getElem?_set_ne (by omega)]

theorem covered_writeBytes (hle : pos + data.length ≤ covered.length) (i : ℕ) :
    (writeBytes pos data (bytes, covered, fresh)).2.1[i]? =
      if pos ≤ i ∧ i < pos + data.length then some true else covered[i]? := by
  induction data generalizing pos bytes covered fresh with
  | nil =>
    rw [if_neg (by rw [List.length_nil]; omega)]
    rfl
  | cons byte data ih =>
    rw [List.length_cons] at hle ⊢
    rw [writeBytes, ih (by rw [List.length_set]; omega)]
    rcases Nat.lt_trichotomy pos i with hlt | rfl | hgt
    · rw [List.getElem?_set_ne (by omega)]
      exact if_congr (by omega) rfl rfl
    · rw [if_neg (by omega), if_pos (by omega), List.getElem?_set_self (by omega)]
    · rw [if_neg (by omega), if_neg (by omega), List.getElem?_set_ne (by omega)]

theorem count_set_true (hpos : pos < covered.length) :
    (covered.set pos true).count true =
      covered.count true + if covered.getD pos false then 0 else 1 := by
  have hget : covered.getD pos false = covered[pos] := by
    rw [List.getD_eq_getElem?_getD, List.getElem?_eq_getElem hpos, Option.getD_some]
  rw [List.count_set hpos, hget]
  cases hbit : covered[pos] with
  | false => simp
  | true =>
    have hcount : 0 < covered.count true := List.count_pos_iff.mpr (hbit ▸ List.getElem_mem hpos)
    simp only [beq_self_eq_true, if_true]
    omega

theorem fresh_writeBytes (hle : pos + data.length ≤ covered.length) :
    (writeBytes pos data (bytes, covered, fresh)).2.2 + covered.count true =
      fresh + (writeBytes pos data (bytes, covered, fresh)).2.1.count true := by
  induction data generalizing pos bytes covered fresh with
  | nil => rfl
  | cons byte data ih =>
    rw [List.length_cons] at hle
    rw [writeBytes]
    have hrest := @ih (pos + 1) (if covered.getD pos false then fresh else fresh + 1)
      (bytes.set pos byte) (covered.set pos true) (by rw [List.length_set]; omega)
    rw [count_set_true (by omega)] at hrest
    cases hbit : covered.getD pos false with
    | true =>
      simp only [hbit, if_true] at hrest ⊢
      omega
    | false =>
      simp only [hbit, Bool.false_eq_true, if_false] at hrest ⊢
      omega

end Writing

section Receiving

variable {d d' : Download} {call : Call} {answer : Except DownloadError Unit}

inductive Received (d : Download) (call : Call) : Download × Except DownloadError Unit → Prop
  | rejected {e : DownloadError}
      (hwhy : d.isComplete = true ∨ d.plan.fileLen.toNat < call.offset.toNat + call.data.length) :
      Received d call (d, .error e)
  | accepted {d' : Download} (hopen : d.isComplete = false)
      (hfits : call.offset.toNat + call.data.length ≤ d.plan.fileLen.toNat)
      (hplan : d'.plan = d.plan)
      (hbytes : d'.bytes =
        (writeBytes call.offset.toNat call.data (d.bytes, d.covered, 0)).1)
      (hcovered : d'.covered =
        (writeBytes call.offset.toNat call.data (d.bytes, d.covered, 0)).2.1)
      (hcount : d'.receivedBytes = d.receivedBytes +
        BitVec.ofNat 64 (writeBytes call.offset.toNat call.data (d.bytes, d.covered, 0)).2.2) :
      Received d call (d', .ok ())

theorem step_received (d : Download) (call : Call) : Received d call (step d call) := by
  obtain ⟨offset, data, nowTick⟩ := call
  unfold step Download.receive
  dsimp only
  split
  · rename_i hcomplete
    exact .rejected (.inl hcomplete)
  rename_i hopen
  rw [Bool.not_eq_true] at hopen
  have hlt := d.plan.fileLen.isLt
  split
  · rename_i hover
    exact .rejected (.inr (by dsimp only; omega))
  split
  · rename_i hbeyond
    exact .rejected (.inr hbeyond)
  rename_i hfits
  rw [Nat.not_lt] at hfits
  split
  · rename_i hempty
    obtain rfl := List.isEmpty_iff.mp hempty
    exact .accepted hopen hfits rfl rfl rfl (BitVec.add_zero _).symm
  split
  · exact .accepted hopen hfits rfl rfl rfl rfl
  · rename_i hstale
    refine .accepted hopen hfits rfl rfl rfl ?_
    rw [Nat.eq_zero_of_not_pos hstale]
    exact (BitVec.add_zero _).symm

end Receiving

/-- The download agrees with the file and with what was accepted so far. -/
structure Tracks (file : List UInt8) (d : Download)
    (history : List (Call × Except DownloadError Unit)) : Prop where
  fileLen : d.plan.fileLen.toNat = file.length
  length : d.bytes.length = file.length
  covered : d.covered = (List.range file.length).map (coveredBy history)
  bytes : ∀ i, coveredBy history i = true → d.bytes[i]? = file[i]?
  counted : d.receivedBytes.toNat = d.covered.count true

section Tracking

variable {file : List UInt8} {d : Download} {history : List (Call × Except DownloadError Unit)}

theorem coveredBy_concat (x : Call × Except DownloadError Unit) (i : ℕ) :
    coveredBy (history ++ [x]) i = (coveredBy history i || brings i x) := by
  simp [coveredBy]

theorem tracks_new {plan : ChunkPlan} (hplan : plan.fileLen.toNat = file.length)
    (nowTick : BitVec 64) : Tracks file (.new plan nowTick) [] where
  fileLen := hplan
  length := by simp [Download.new, hplan]
  covered := by
    have hnone : coveredBy [] = fun _ ↦ false := rfl
    rw [hnone, List.map_const', List.length_range, ← hplan]
    rfl
  bytes i hi := by cases hi
  counted := by
    have hnone : (List.replicate plan.fileLen.toNat false).count true = 0 := by
      simp [List.count_replicate]
    exact hnone.symm

theorem step_tracks {call : Call} (htracks : Tracks file d history)
    (hagrees : (step d call).2.isOk = true → Agrees file call) :
    Tracks file (step d call).1 (history ++ [(call, (step d call).2)]) := by
  have hreceived := step_received d call
  generalize step d call = r at hreceived hagrees
  cases hreceived with
  | rejected hwhy =>
    have hsame (e : DownloadError) :
        coveredBy (history ++ [(call, .error e)]) = coveredBy history := by
      funext i
      rw [coveredBy_concat]
      exact Bool.or_false _
    refine ⟨htracks.fileLen, htracks.length, ?_, fun i hi ↦ ?_, htracks.counted⟩
    · rw [hsame]
      exact htracks.covered
    · rw [hsame] at hi
      exact htracks.bytes i hi
  | @accepted d' hopen hfits hplan hbytes hcovered hcount =>
    have hlength : d.covered.length = file.length := by
      rw [htracks.covered, List.length_map, List.length_range]
    have hwhole (i : ℕ) : brings i (call, .ok ()) = true ↔
        call.offset.toNat ≤ i ∧ i < call.offset.toNat + call.data.length := by
      simp [brings, Except.isOk, Except.toBool]
    rw [htracks.fileLen] at hfits
    refine ⟨hplan ▸ htracks.fileLen, ?_, ?_, fun i hi ↦ ?_, ?_⟩
    · rw [hbytes, length_writeBytes, htracks.length]
    · refine List.ext_getElem? (fun i ↦ ?_)
      rw [hcovered, covered_writeBytes (by omega), htracks.covered, List.getElem?_map,
        List.getElem?_map]
      split
      · rename_i hin
        rw [List.getElem?_range (by omega), Option.map_some, coveredBy_concat, (hwhole i).mpr hin,
          Bool.or_true]
      · rename_i hout
        have hbrings : brings i (call, .ok ()) = false :=
          Bool.eq_false_iff.mpr (fun h ↦ hout ((hwhole i).mp h))
        by_cases hi : i < file.length
        · rw [List.getElem?_range hi, Option.map_some, Option.map_some, coveredBy_concat, hbrings,
            Bool.or_false]
        · rw [List.getElem?_eq_none (by rw [List.length_range]; omega)]
          rfl
    · rw [hbytes, bytes_writeBytes (by rw [htracks.length]; exact hfits)]
      rw [coveredBy_concat, Bool.or_eq_true, hwhole] at hi
      split
      · rename_i hin
        obtain ⟨rest, hrest⟩ := hagrees rfl
        have hhere : (call.data ++ rest)[i - call.offset.toNat]? =
            call.data[i - call.offset.toNat]? := List.getElem?_append_left (by omega)
        rw [← hhere, hrest, List.getElem?_drop, Nat.add_sub_of_le hin.1]
      · rename_i hout
        exact htracks.bytes i (hi.resolve_right hout)
    · have hfresh := @fresh_writeBytes call.offset.toNat 0 call.data d.bytes d.covered (by omega)
      have hle : d'.covered.count true ≤ d'.covered.length := List.count_le_length
      have hlength' : d'.covered.length = file.length := by
        rw [hcovered, length_covered, hlength]
      have hfile := d.plan.fileLen.isLt
      rw [← hcovered, ← htracks.counted] at hfresh
      rw [htracks.fileLen] at hfile
      dsimp only
      rw [hcount, BitVec.toNat_add, BitVec.toNat_ofNat]
      omega

theorem isComplete_iff (htracks : Tracks file d history) :
    d.isComplete = true ↔ ∀ i < file.length, coveredBy history i = true := by
  rw [Download.isComplete, beq_iff_eq, ← BitVec.toNat_inj, htracks.counted, htracks.fileLen]
  have hlength : file.length = d.covered.length := by
    rw [htracks.covered, List.length_map, List.length_range]
  rw [hlength, List.count_eq_length, htracks.covered]
  simp only [List.forall_mem_map, List.mem_range, List.length_map, List.length_range, eq_comm]

theorem assembled_eq_some (htracks : Tracks file d history) {bytes : List UInt8}
    (h : d.assembled = some bytes) : bytes = file := by
  unfold Download.assembled at h
  split at h
  · rename_i hcomplete
    cases h
    refine List.ext_getElem? (fun i ↦ ?_)
    by_cases hi : i < file.length
    · exact htracks.bytes i ((isComplete_iff htracks).mp hcomplete i hi)
    · rw [List.getElem?_eq_none (by rw [htracks.length]; omega), List.getElem?_eq_none (by omega)]
  · cases h

end Tracking

section Missing

/-- The loop of `missing_ranges` keeps the runs of what it has seen, the open one at the end. -/
theorem scan_runs (covered : List Bool) :
    MaximalRuns {i | covered[i]? = some false}
        ((covered.zipIdx.foldl scanByte ([], none)).1 ++
          (covered.zipIdx.foldl scanByte ([], none)).2.toList) ∧
      (covered.zipIdx.foldl scanByte ([], none)).2.elim
        (∀ r ∈ (covered.zipIdx.foldl scanByte ([], none)).1, r.1 + r.2 < covered.length)
        (fun r ↦ r.1 + r.2 = covered.length) := by
  induction covered using List.reverseRecOn with
  | nil => exact ⟨maximalRuns_nil.congr (fun i ↦ by simp), List.forall_mem_nil _⟩
  | append_singleton covered bit ih =>
    rw [List.zipIdx_append, List.foldl_append, List.length_append]
    generalize covered.zipIdx.foldl scanByte ([], none) = runs at ih
    obtain ⟨out, run⟩ := runs
    obtain ⟨hruns, hend⟩ := ih
    have hmem (i : ℕ) : (covered ++ [bit])[i]? = some false ↔
        covered[i]? = some false ∨ i = covered.length ∧ bit = false := by
      rcases Nat.lt_trichotomy i covered.length with hlt | rfl | hgt
      · rw [List.getElem?_append_left hlt, or_iff_left (by omega)]
      · simp
      · rw [List.getElem?_eq_none (by simp; omega), List.getElem?_eq_none (by omega)]
        exact iff_of_false (by simp) (by simp; omega)
    cases bit with
    | true =>
      have hkept : MaximalRuns {i | (covered ++ [true])[i]? = some false} (out ++ run.toList) :=
        hruns.congr (fun i ↦ by simp [hmem])
      cases run with
      | none => exact ⟨hkept, fun r hr ↦ (hend r hr).trans (Nat.lt_succ_self _)⟩
      | some r =>
        have hlast : r.1 + r.2 = covered.length := hend
        refine ⟨by simpa [scanByte] using hkept, fun a ha ↦ ?_⟩
        rcases List.mem_append.mp ha with ha | ha
        · have hbefore := (List.pairwise_append.mp hruns.apart).2.2 a ha r List.mem_cons_self
          rw [List.length_singleton]
          omega
        · rw [List.mem_singleton.mp ha, hlast]
          exact Nat.lt_succ_self _
    | false =>
      have hgrown (i : ℕ) : i ∈ {i | (covered ++ [false])[i]? = some false} ↔
          i ∈ insert covered.length {i | covered[i]? = some false} := by
        rw [Set.mem_insert_iff]
        exact (hmem i).trans (by rw [or_comm]; simp)
      cases run with
      | none =>
        rw [Option.toList_none, List.append_nil] at hruns
        simpa [scanByte] using (hruns.open hend).congr hgrown
      | some r =>
        obtain ⟨start, len⟩ := r
        have hlast : start + len = covered.length := hend
        rw [← hlast] at hgrown
        refine ⟨hruns.extend.congr hgrown, ?_⟩
        show start + (len + 1) = covered.length + 1
        omega

theorem missingRanges_maximal {file : List UInt8} {d : Download}
    {history : List (Call × Except DownloadError Unit)} (htracks : Tracks file d history) :
    MaximalRuns {i | i < file.length ∧ coveredBy history i = false} d.missingRanges := by
  refine (scan_runs d.covered).1.congr (fun i ↦ ?_)
  show i < file.length ∧ coveredBy history i = false ↔ d.covered[i]? = some false
  rw [htracks.covered, List.getElem?_map]
  by_cases hi : i < file.length
  · rw [List.getElem?_range hi, Option.map_some, Option.some_inj, and_iff_right hi]
  · rw [List.getElem?_eq_none (by rw [List.length_range]; omega)]
    exact iff_of_false (fun h ↦ hi h.1) (by simp)

end Missing

section Filling

variable {file : List UInt8} {d : Download}

structure Fills (file : List UInt8) (d : Download) (calls : List Call) : Prop where
  ranges : (calls.map (fun c ↦ (c.offset.toNat, c.data.length))).Perm d.missingRanges
  agree : ∀ c ∈ calls, Agrees file c

/-- Calls that fit and agree with the file are all heard, unless the download is done before. -/
theorem run_fills {history : List (Call × Except DownloadError Unit)}
    (htracks : Tracks file d history) (calls : List Call)
    (hfits : ∀ c ∈ calls, c.offset.toNat + c.data.length ≤ file.length)
    (hagree : ∀ c ∈ calls, Agrees file c) :
    Tracks file (run step d calls) (history ++ answers step d calls) ∧
      ((run step d calls).isComplete = true ∨ ∀ x ∈ answers step d calls, x.2.isOk = true) := by
  induction calls using List.reverseRecOn with
  | nil => exact ⟨by simpa [answers, trace] using htracks, .inr (by simp [answers, trace])⟩
  | append_singleton calls call ih =>
    rw [List.forall_mem_append, List.forall_mem_singleton] at hfits hagree
    obtain ⟨hnow, hheard⟩ := ih hfits.1 hagree.1
    rw [run_concat, answers_concat, ← List.append_assoc]
    have hnext := step_tracks hnow (fun _ ↦ hagree.2)
    refine ⟨hnext, ?_⟩
    have hreceived := step_received (run step d calls) call
    generalize step (run step d calls) call = r at hreceived
    cases hreceived with
    | rejected hwhy =>
      refine .inl (hwhy.resolve_right (fun hlt ↦ ?_))
      rw [hnow.fileLen] at hlt
      omega
    | accepted hopen =>
      refine .inr (List.forall_mem_append.mpr ⟨?_, List.forall_mem_singleton.mpr rfl⟩)
      exact hheard.resolve_left (by simp [hopen])

theorem fills_complete {history : List (Call × Except DownloadError Unit)}
    (htracks : Tracks file d history) {calls : List Call} (hfills : Fills file d calls) :
    (run step d calls).isComplete = true := by
  have hruns := missingRanges_maximal htracks
  have hfits (c : Call) (hc : c ∈ calls) : c.offset.toNat + c.data.length ≤ file.length := by
    have hrange : (c.offset.toNat, c.data.length) ∈ d.missingRanges :=
      hfills.ranges.mem_iff.mp (List.mem_map_of_mem hc)
    have hpos := hruns.nonempty _ hrange
    have hlast := (hruns.covers (c.offset.toNat + c.data.length - 1)).mpr
      ⟨_, hrange, by dsimp only [Inside] at *; omega⟩
    have := hlast.1
    omega
  obtain ⟨hafter, hdone | hheard⟩ := run_fills htracks calls hfits hfills.agree
  · exact hdone
  rw [isComplete_iff hafter]
  intro i hi
  rw [coveredBy, List.any_append, Bool.or_eq_true]
  by_cases hold : coveredBy history i = true
  · exact .inl hold
  -- an uncovered byte lies in a missing range, and so in one of the calls
  obtain ⟨r, hr, hin⟩ := (hruns.covers i).mp ⟨hi, Bool.eq_false_iff.mpr hold⟩
  obtain ⟨c, hc, rfl⟩ := List.mem_map.mp (hfills.ranges.mem_iff.mpr hr)
  rw [← answers_inputs step d calls] at hc
  obtain ⟨x, hx, rfl⟩ := List.mem_map.mp hc
  refine .inr (List.any_eq_true.mpr ⟨x, hx, ?_⟩)
  simp only [brings, hheard x hx, Bool.true_and, Bool.and_eq_true, decide_eq_true_eq]
  exact hin

end Filling

/-- After any calls whose accepted slices are the file's own, the count is the number of the covered
bytes, the missing ranges are the maximal uncovered runs, bringing these completes the download, and
the file is handed out exactly when it is whole; a rejected call changes nothing. -/
theorem receive_covers {plan : ChunkPlan} {nowTick : BitVec 64} {file : List UInt8}
    {calls : List Call} (hplan : plan.fileLen.toNat = file.length)
    (hagree : ∀ x ∈ answers step (.new plan nowTick) calls, x.2.isOk = true → Agrees file x.1) :
    let d := run step (.new plan nowTick) calls
    let covered := coveredBy (answers step (.new plan nowTick) calls)
    d.receivedBytes.toNat = (List.range file.length).countP covered ∧
      MaximalRuns {i | i < file.length ∧ covered i = false} d.missingRanges ∧
      (∀ more, Fills file d more → (run step d more).isComplete = true) ∧
      (d.assembled.isSome = true ↔ ∀ i < file.length, covered i = true) ∧
      (∀ bytes, d.assembled = some bytes → bytes = file) ∧
      ∀ call, (step d call).2.isOk = false → (step d call).1 = d := by
  intro d covered
  have htracks : Tracks file d (answers step (.new plan nowTick) calls) := by
    let Agreed (history : List (Call × Except DownloadError Unit)) : Prop :=
      ∀ x ∈ history, x.2.isOk = true → Agrees file x.1
    have hcalls := throughout_answers (C := Agreed)
      (fun h x hx y hy ↦ hx y (List.mem_append_left _ hy)) hagree
    refine invariant_throughout (I := Tracks file) ?_ (tracks_new hplan nowTick) calls hcalls
    intro d history call htracks hagreed
    exact step_tracks htracks
      (hagreed (call, (step d call).2) (List.mem_append_right _ List.mem_cons_self))
  refine ⟨?_, missingRanges_maximal htracks, fun more ↦ fills_complete htracks, ?_,
    fun bytes ↦ assembled_eq_some htracks, fun call hrejected ↦ ?_⟩
  · rw [htracks.counted, htracks.covered, List.count, List.countP_map]
    exact List.countP_congr (fun i _ ↦ by simp [covered])
  · rw [← isComplete_iff htracks, Download.assembled]
    split <;> simp_all
  · have hreceived := step_received d call
    generalize step d call = r at hreceived hrejected
    cases hreceived with
    | rejected hwhy => rfl
    | accepted => cases hrejected

/-- The end of a file of three bytes, twice, with a slice in between that does not fit. -/
def resumed : List Call := [⟨2, [9], 1⟩, ⟨2, [9, 9], 2⟩, ⟨1, [8, 9], 3⟩]

theorem resumed_completes :
    (run step (.new ⟨3, 2, 2⟩ 0) resumed).missingRanges = [(0, 1)] ∧
      (run step (run step (.new ⟨3, 2, 2⟩ 0) resumed) [⟨0, [7], 4⟩]).isComplete = true := by
  have hagree : ∀ x ∈ answers step (.new ⟨3, 2, 2⟩ 0) resumed,
      x.2.isOk = true → Agrees [7, 8, 9] x.1 := by
    unfold Agrees
    decide
  have hfills : Fills [7, 8, 9] (run step (.new ⟨3, 2, 2⟩ 0) resumed) [⟨0, [7], 4⟩] := by
    refine ⟨by decide, ?_⟩
    rw [List.forall_mem_singleton]
    unfold Agrees
    decide
  exact ⟨by decide, (@receive_covers _ _ [7, 8, 9] _ rfl hagree).2.2.1 _ hfills⟩

end Aldivine.Downloads.Coverage

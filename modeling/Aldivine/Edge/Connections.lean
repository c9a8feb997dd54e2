import Aldivine.Edge.Networks
import Aldivine.Foundation.Execution
import Aldivine.Foundation.Fallible
import Aldivine.Foundation.Table
import Mathlib.Data.Finset.Basic

namespace Aldivine.Edge.Connections

open Foundation.Execution Foundation.Fallible Foundation.Machine Foundation.Table Networks

inductive DenyReason
  | bannedNetwork
  | bannedIp
  | quarantined
deriving DecidableEq

inductive AdmissionVerdict
  | allow
  | deniedIp (reason : DenyReason)
  | deniedRateLimit
  | deniedOriginCapacity
  | deniedShielding
deriving DecidableEq

structure EdgeConfig where
  perIpConnectionLimit : BitVec 32
  originConnectionLimit : BitVec 32
  deniedNetworks : List String
  shieldAllowNetworks : List String
  failClosed : Bool

/-- The counters are raised only below a 32-bit limit, so they are kept as plain numbers. -/
structure EdgeAdmission where
  config : EdgeConfig
  perIp : AList (fun _ : IpAddr ↦ ℕ)
  deniedIps : Finset IpAddr
  deniedNets : List (IpAddr × BitVec 8)
  shieldNets : List (IpAddr × BitVec 8)
  originInUse : ℕ
  shielding : Bool

def netMatches (mode : Overflow) (nets : List (IpAddr × BitVec 8)) (ip : IpAddr) : Option Bool :=
  nets.anyM (fun net ↦ ipInNet mode ip net.1 net.2)

namespace EdgeAdmission

def new (parseAddr : String → Option IpAddr) (config : EdgeConfig) :
    Except EdgeError EdgeAdmission := do
  let deniedNets ← parseNets parseAddr config.deniedNetworks
  let shieldNets ← parseNets parseAddr config.shieldAllowNetworks
  return ⟨config, ∅, ∅, deniedNets, shieldNets, 0, false⟩

def count (s : EdgeAdmission) (addr : IpAddr) : ℕ := (s.perIp.lookup addr).getD 0

/-- The part of `admit_connection` that counts nothing: a verdict, or none yet. -/
def screen (mode : Overflow) (s : EdgeAdmission) (src : IpAddr) :
    Option (Option AdmissionVerdict) := do
  if src ∈ s.deniedIps then return some (.deniedIp .bannedIp)
  if ← netMatches mode s.deniedNets src then return some (.deniedIp .bannedNetwork)
  if s.shielding then
    let shielded ← netMatches mode s.shieldNets src
    if !shielded || s.config.failClosed then return some .deniedShielding
  return none

/-- The counting part, which leaves an entry for the address even if it denies. -/
def countConnection (s : EdgeAdmission) (src : IpAddr) : EdgeAdmission × AdmissionVerdict :=
  let perIp := s.perIp.insert src (s.count src)
  if s.config.perIpConnectionLimit.toNat ≤ s.count src then ({ s with perIp }, .deniedRateLimit)
  else if s.config.originConnectionLimit.toNat ≤ s.originInUse then
    ({ s with perIp }, .deniedOriginCapacity)
  else
    ({ s with
        perIp := perIp.insert src (s.count src + 1)
        originInUse := s.originInUse + 1 }, .allow)

def admitConnection (mode : Overflow) (s : EdgeAdmission) (src : IpAddr) :
    EdgeAdmission × Option AdmissionVerdict :=
  match s.screen mode src with
  | none => (s, none)
  | some (some verdict) => (s, some verdict)
  | some none => ((s.countConnection src).1, some (s.countConnection src).2)

def releaseConnection (s : EdgeAdmission) (src : IpAddr) : EdgeAdmission :=
  let perIp := match s.perIp.lookup src with
    | some c => if c - 1 = 0 then s.perIp.erase src else s.perIp.insert src (c - 1)
    | none => s.perIp
  { s with perIp, originInUse := s.originInUse - 1 }

def banIp (s : EdgeAdmission) (ip : IpAddr) : EdgeAdmission :=
  { s with deniedIps := insert ip s.deniedIps }

def unbanIp (s : EdgeAdmission) (ip : IpAddr) : EdgeAdmission :=
  { s with deniedIps := s.deniedIps.erase ip }

def setShielding (s : EdgeAdmission) (shielding : Bool) : EdgeAdmission :=
  { s with shielding := shielding }

def gc (s : EdgeAdmission) : EdgeAdmission :=
  { s with perIp := retain (fun _ c ↦ decide (0 < c)) s.perIp }

end EdgeAdmission

inductive Call
  | admitConnection (src : IpAddr)
  | releaseConnection (src : IpAddr)
  | banIp (ip : IpAddr)
  | unbanIp (ip : IpAddr)
  | setShielding (shielding : Bool)
  | gc
deriving DecidableEq

/-- An admission that panics has no verdict. -/
inductive Reply
  | verdict (v : Option AdmissionVerdict)
  | done
deriving DecidableEq

def step (mode : Overflow) (s : EdgeAdmission) : Call → EdgeAdmission × Reply
  | .admitConnection src =>
    ((s.admitConnection mode src).1, .verdict (s.admitConnection mode src).2)
  | .releaseConnection src => (s.releaseConnection src, .done)
  | .banIp ip => (s.banIp ip, .done)
  | .unbanIp ip => (s.unbanIp ip, .done)
  | .setShielding shielding => (s.setShielding shielding, .done)
  | .gc => (s.gc, .done)

/-- What a call does to the connections that are open: an admission opens one, a release closes one
of its address if there is any. -/
def track (conns : List IpAddr) : Call × Reply → List IpAddr
  | (.admitConnection src, .verdict (some .allow)) => src :: conns
  | (.releaseConnection src, _) => conns.erase src
  | _ => conns

/-- The connections admitted and not effectively released, each under its address. -/
def connections (history : List (Call × Reply)) : List IpAddr := history.foldl track []

structure Accounted (s : EdgeAdmission) (history : List (Call × Reply)) : Prop where
  opened : s.originInUse = (connections history).length
  summed : s.originInUse = total id s.perIp
  withinOrigin : s.originInUse ≤ s.config.originConnectionLimit.toNat
  withinPerIp : ∀ addr, s.count addr ≤ s.config.perIpConnectionLimit.toNat

def DeniedKeeps (mode : Overflow) (s : EdgeAdmission) (call : Call) : Prop :=
  ∀ src, call = .admitConnection src → (step mode s call).2 ≠ .verdict (some .allow) →
    (step mode s call).1.originInUse = s.originInUse ∧
      ∀ addr, (step mode s call).1.count addr = s.count addr

def AccountedThroughout (mode : Overflow) (s : EdgeAdmission) (calls : List Call) : Prop :=
  (∀ before, before <+: calls →
      Accounted (run (step mode) s before) (answers (step mode) s before)) ∧
    ∀ x ∈ trace (step mode) s calls, DeniedKeeps mode x.1 x.2

/-- A release is for an address with an open connection, or comes when nothing is in use. -/
def Matched (s : EdgeAdmission) : Call → Prop
  | .releaseConnection src => 0 < s.count src ∨ s.originInUse = 0
  | _ => True

variable {mode : Overflow} {s : EdgeAdmission} {history : List (Call × Reply)} {call : Call}

theorem connections_concat (history : List (Call × Reply)) (x : Call × Reply) :
    connections (history ++ [x]) = track (connections history) x := by
  simp [connections]

theorem track_denied {conns : List IpAddr} {src : IpAddr} {v : Option AdmissionVerdict}
    (h : v ≠ some .allow) : track conns (.admitConnection src, .verdict v) = conns := by
  unfold track
  split
  · rename_i heq
    cases heq
    exact absurd rfl h
  · rename_i heq
    cases heq
  · rfl

/-- What holds in every run: the counters by address follow the open connections. -/
structure Tracked (s : EdgeAdmission) (history : List (Call × Reply)) : Prop where
  counted : ∀ addr, s.count addr = (connections history).count addr
  totalled : total id s.perIp = (connections history).length
  withinOrigin : s.originInUse ≤ s.config.originConnectionLimit.toNat
  withinPerIp : ∀ addr, s.count addr ≤ s.config.perIpConnectionLimit.toNat

section Counting

theorem count_insert {s' : EdgeAdmission} {src : IpAddr} {n : ℕ}
    (h : s'.perIp = s.perIp.insert src n) (addr : IpAddr) :
    s'.count addr = if addr = src then n else s.count addr := by
  rw [EdgeAdmission.count, h, lookup_insert_ite]
  split <;> rfl

theorem total_insert (s : EdgeAdmission) (src : IpAddr) (n : ℕ) :
    total id (s.perIp.insert src n) + s.count src = total id s.perIp + n := by
  rw [EdgeAdmission.count]
  cases hlook : s.perIp.lookup src with
  | none => exact congrArg (· + 0) (total_insert_new id n hlook)
  | some c => exact total_insert_old id n hlook

theorem count_le_total (src : IpAddr) : s.count src ≤ total id s.perIp := by
  rw [EdgeAdmission.count]
  cases hlook : s.perIp.lookup src with
  | none => exact Nat.zero_le _
  | some c => exact le_total id hlook

structure SameCounts (s s' : EdgeAdmission) : Prop where
  config : s'.config = s.config
  originInUse : s'.originInUse = s.originInUse
  totalled : total id s'.perIp = total id s.perIp
  count : ∀ addr, s'.count addr = s.count addr

structure Counted (src : IpAddr) (s s' : EdgeAdmission) : Prop where
  config : s'.config = s.config
  originInUse : s'.originInUse = s.originInUse + 1
  totalled : total id s'.perIp = total id s.perIp + 1
  count : ∀ addr, s'.count addr = if addr = src then s.count src + 1 else s.count addr
  roomOrigin : s.originInUse < s.config.originConnectionLimit.toNat
  roomPerIp : s.count src < s.config.perIpConnectionLimit.toNat

theorem screen_ne_allow {src : IpAddr} {v : AdmissionVerdict}
    (h : s.screen mode src = some (some v)) : v ≠ .allow := by
  rintro rfl
  simp only [EdgeAdmission.screen, Option.bind_eq_bind, Option.pure_def] at h
  split at h
  · cases h
  · obtain ⟨denied, -, h⟩ := Option.bind_eq_some_iff.mp h
    split at h
    · cases h
    · split at h
      · obtain ⟨shielded, -, h⟩ := Option.bind_eq_some_iff.mp h
        split at h
        · cases h
        · cases h
      · cases h

theorem countConnection_cases (s : EdgeAdmission) (src : IpAddr) :
    ((s.countConnection src).2 = .allow ∧ Counted src s (s.countConnection src).1) ∨
      ((s.countConnection src).2 ≠ .allow ∧ SameCounts s (s.countConnection src).1) := by
  have htotal : total id (s.perIp.insert src (s.count src)) = total id s.perIp :=
    Nat.add_right_cancel (total_insert s src (s.count src))
  have hcount (s' : EdgeAdmission) (h : s'.perIp = s.perIp.insert src (s.count src))
      (addr : IpAddr) : s'.count addr = s.count addr := by
    rw [count_insert h]
    split
    · subst_vars
      rfl
    · rfl
  unfold EdgeAdmission.countConnection
  dsimp only
  split
  · refine .inr ⟨?_, rfl, rfl, htotal, hcount _ rfl⟩
    intro h
    cases h
  · split
    · refine .inr ⟨?_, rfl, rfl, htotal, hcount _ rfl⟩
      intro h
      cases h
    · have hnew : total id (s.perIp.insert src (s.count src + 1)) = total id s.perIp + 1 := by
        have hins := total_insert s src (s.count src + 1)
        omega
      refine .inl ⟨rfl, rfl, rfl, ?_, fun addr ↦ ?_, by omega, by omega⟩
      · rw [AList.insert_insert]
        exact hnew
      · exact count_insert (AList.insert_insert _) addr

theorem admit_cases (mode : Overflow) (s : EdgeAdmission) (src : IpAddr) :
    ((s.admitConnection mode src).2 = some .allow ∧
        Counted src s (s.admitConnection mode src).1) ∨
      ((s.admitConnection mode src).2 ≠ some .allow ∧
        SameCounts s (s.admitConnection mode src).1) := by
  unfold EdgeAdmission.admitConnection
  split
  · refine .inr ⟨?_, rfl, rfl, rfl, fun _ ↦ rfl⟩
    intro h
    cases h
  · rename_i hscreen
    refine .inr ⟨?_, rfl, rfl, rfl, fun _ ↦ rfl⟩
    intro h
    exact screen_ne_allow hscreen (Option.some.inj h)
  · rcases countConnection_cases s src with ⟨hallow, hcounted⟩ | ⟨hdenied, hsame⟩
    · exact .inl ⟨congrArg some hallow, hcounted⟩
    · exact .inr ⟨fun h ↦ hdenied (Option.some.inj h), hsame⟩

theorem release_count (s : EdgeAdmission) (src addr : IpAddr) :
    (s.releaseConnection src).count addr =
      if addr = src then s.count src - 1 else s.count addr := by
  unfold EdgeAdmission.releaseConnection EdgeAdmission.count
  cases hlook : s.perIp.lookup src with
  | none =>
    dsimp only
    split
    · subst_vars
      rw [hlook]
      rfl
    · rfl
  | some c =>
    dsimp only
    split
    · rename_i hlast
      split
      · subst_vars
        rw [AList.lookup_erase]
        exact hlast.symm
      · rw [AList.lookup_erase_ne ‹_›]
    · rw [lookup_insert_ite]
      split <;> rfl

theorem release_total (s : EdgeAdmission) (src : IpAddr) :
    total id (s.releaseConnection src).perIp =
      if 0 < s.count src then total id s.perIp - 1 else total id s.perIp := by
  have hle := count_le_total (s := s) src
  unfold EdgeAdmission.releaseConnection EdgeAdmission.count at *
  cases hlook : s.perIp.lookup src with
  | none => rfl
  | some c =>
    rw [hlook, Option.getD_some] at hle
    dsimp only [Option.getD_some]
    have herase : total id (s.perIp.erase src) + c = total id s.perIp := total_erase id hlook
    have hins : total id (s.perIp.insert src (c - 1)) + c = total id s.perIp + (c - 1) :=
      total_insert_old id (c - 1) hlook
    split
    · split <;> omega
    · split <;> omega

theorem gc_same (s : EdgeAdmission) : SameCounts s s.gc := by
  refine ⟨rfl, rfl, total_retain id _ _ (fun _ c hc ↦ by simpa using hc), fun addr ↦ ?_⟩
  rw [EdgeAdmission.count, EdgeAdmission.count, EdgeAdmission.gc, lookup_retain]
  cases s.perIp.lookup addr with
  | none => rfl
  | some c =>
    by_cases hc : 0 < c
    · simp [Option.filter, hc]
    · have hzero : c = 0 := Nat.eq_zero_of_not_pos hc
      simp [Option.filter, hzero]

end Counting

section Steps

theorem tracked_same {s' : EdgeAdmission} {x : Call × Reply} (h : Tracked s history)
    (hsame : SameCounts s s') (hconns : connections (history ++ [x]) = connections history) :
    Tracked s' (history ++ [x]) := by
  refine ⟨fun addr ↦ ?_, ?_, ?_, fun addr ↦ ?_⟩
  · rw [hsame.count, hconns]
    exact h.counted addr
  · rw [hsame.totalled, hconns]
    exact h.totalled
  · rw [hsame.originInUse, hsame.config]
    exact h.withinOrigin
  · rw [hsame.count, hsame.config]
    exact h.withinPerIp addr

theorem tracked_counted {s' : EdgeAdmission} {x : Call × Reply} {src : IpAddr}
    (h : Tracked s history) (hcounted : Counted src s s')
    (hconns : connections (history ++ [x]) = src :: connections history) :
    Tracked s' (history ++ [x]) := by
  refine ⟨fun addr ↦ ?_, ?_, ?_, fun addr ↦ ?_⟩
  · rw [hcounted.count, hconns, List.count_cons]
    by_cases haddr : addr = src
    · subst haddr
      simp [h.counted addr]
    · simp [haddr, Ne.symm haddr, h.counted addr]
  · rw [hcounted.totalled, hconns, List.length_cons, h.totalled]
  · rw [hcounted.originInUse, hcounted.config]
    exact hcounted.roomOrigin
  · rw [hcounted.count, hcounted.config]
    split
    · exact hcounted.roomPerIp
    · exact h.withinPerIp addr

theorem tracked_release {src : IpAddr} {reply : Reply} (h : Tracked s history) :
    Tracked (s.releaseConnection src) (history ++ [(.releaseConnection src, reply)]) := by
  have hconns : connections (history ++ [(.releaseConnection src, reply)]) =
      (connections history).erase src := connections_concat _ _
  refine ⟨fun addr ↦ ?_, ?_, ?_, fun addr ↦ ?_⟩
  · rw [release_count, hconns, List.count_erase, ← h.counted addr]
    by_cases haddr : addr = src
    · subst haddr
      simp
    · simp [haddr, Ne.symm haddr]
  · rw [release_total, hconns, List.length_erase, h.totalled]
    have hmem : 0 < s.count src ↔ src ∈ connections history := by
      rw [h.counted, List.count_pos_iff]
    exact if_congr hmem rfl rfl
  · exact (Nat.sub_le _ _).trans h.withinOrigin
  · refine Nat.le_trans ?_ (h.withinPerIp addr)
    rw [release_count]
    split
    · subst_vars
      exact Nat.sub_le _ _
    · exact Nat.le_refl _

theorem step_tracked (h : Tracked s history) :
    Tracked (step mode s call).1 (history ++ [(call, (step mode s call).2)]) := by
  cases call with
  | admitConnection src =>
    rcases admit_cases mode s src with ⟨hallow, hcounted⟩ | ⟨hdenied, hsame⟩
    · refine tracked_counted h hcounted ?_
      rw [connections_concat, step, hallow]
      rfl
    · refine tracked_same h hsame ?_
      exact (connections_concat _ _).trans (track_denied hdenied)
  | releaseConnection src => exact tracked_release h
  | banIp ip => exact tracked_same h ⟨rfl, rfl, rfl, fun _ ↦ rfl⟩ (connections_concat _ _)
  | unbanIp ip => exact tracked_same h ⟨rfl, rfl, rfl, fun _ ↦ rfl⟩ (connections_concat _ _)
  | setShielding shielding =>
    exact tracked_same h ⟨rfl, rfl, rfl, fun _ ↦ rfl⟩ (connections_concat _ _)
  | gc => exact tracked_same h (gc_same s) (connections_concat _ _)

theorem accounted_iff (h : Tracked s history) :
    Accounted s history ↔ s.originInUse = total id s.perIp := by
  constructor
  · intro hacc
    exact hacc.summed
  · intro hsum
    exact ⟨hsum.trans h.totalled, hsum, h.withinOrigin, h.withinPerIp⟩

theorem step_balanced_iff (h : s.originInUse = total id s.perIp) :
    (step mode s call).1.originInUse = total id (step mode s call).1.perIp ↔ Matched s call := by
  have hsame {s' : EdgeAdmission} (hs : SameCounts s s') :
      s'.originInUse = total id s'.perIp := by
    rw [hs.originInUse, hs.totalled]
    exact h
  cases call with
  | admitConnection src =>
    rcases admit_cases mode s src with ⟨-, hcounted⟩ | ⟨-, hs⟩
    · refine iff_of_true ?_ trivial
      rw [step, hcounted.originInUse, hcounted.totalled, h]
    · exact iff_of_true (hsame hs) trivial
  | releaseConnection src =>
    have hle := count_le_total (s := s) src
    rw [step, release_total, EdgeAdmission.releaseConnection, Matched]
    dsimp only
    split
    · omega
    · omega
  | banIp ip => exact iff_of_true h trivial
  | unbanIp ip => exact iff_of_true h trivial
  | setShielding shielding => exact iff_of_true h trivial
  | gc => exact iff_of_true (hsame (gc_same s)) trivial

theorem step_deniedKeeps (mode : Overflow) (s : EdgeAdmission) (call : Call) :
    DeniedKeeps mode s call := by
  rintro src rfl hdenied
  rcases admit_cases mode s src with ⟨hallow, -⟩ | ⟨-, hsame⟩
  · exact absurd (congrArg Reply.verdict hallow) hdenied
  · exact ⟨hsame.originInUse, hsame.count⟩

theorem new_eq_ok {parseAddr : String → Option IpAddr} {config : EdgeConfig}
    (h : EdgeAdmission.new parseAddr config = .ok s) : s.perIp = ∅ ∧ s.originInUse = 0 := by
  obtain ⟨deniedNets, -, h⟩ := bind_eq_ok.mp h
  obtain ⟨shieldNets, -, h⟩ := bind_eq_ok.mp h
  cases h
  exact ⟨rfl, rfl⟩

/-- The accounts balance throughout exactly when every release is matched by an open connection of
its address, or comes when nothing is in use. -/
theorem accounted_iff_matched (mode : Overflow) (parseAddr : String → Option IpAddr)
    (config : EdgeConfig) (s : EdgeAdmission) (h : EdgeAdmission.new parseAddr config = .ok s)
    (calls : List Call) :
    AccountedThroughout mode s calls ↔ ∀ x ∈ trace (step mode) s calls, Matched x.1 x.2 := by
  obtain ⟨hempty, hzero⟩ := new_eq_ok h
  have hcount (addr : IpAddr) : s.count addr = 0 := by
    rw [EdgeAdmission.count, hempty]
    rfl
  have htracked : Tracked s [] := by
    refine ⟨fun addr ↦ hcount addr, ?_, ?_, fun addr ↦ ?_⟩
    · rw [hempty]
      rfl
    · rw [hzero]
      exact Nat.zero_le _
    · rw [hcount]
      exact Nat.zero_le _
  have hbalanced : s.originInUse = total id s.perIp := by
    rw [hzero, hempty]
    rfl
  refine steps_run_iff (B := Tracked) (fun s h call hb _ ↦ step_tracked hb) ?_ htracked
    ((accounted_iff htracked).mpr hbalanced) calls
  intro s h call hb hi
  rw [accounted_iff (step_tracked hb), step_balanced_iff hi.summed]
  exact and_iff_left (step_deniedKeeps mode s call)

end Steps

def smallConfig : EdgeConfig := ⟨1, 2, [], [], true⟩

def smallEdge : EdgeAdmission := ⟨smallConfig, ∅, ∅, [], [], 0, false⟩

theorem released_once_accounted :
    AccountedThroughout .panics smallEdge
      [.admitConnection (.v4 1), .releaseConnection (.v4 1), .gc] := by
  refine (accounted_iff_matched .panics (fun _ ↦ none) smallConfig smallEdge rfl _).mpr ?_
  intro x hx
  simp only [trace, List.mem_cons, List.not_mem_nil, or_false] at hx
  rcases hx with rfl | rfl | rfl
  · trivial
  · exact .inl (by decide)
  · trivial

/-- The release of an address with no connection gives back the connection of another one. -/
theorem stray_release_not_accounted :
    ¬AccountedThroughout .panics smallEdge
      [.admitConnection (.v4 1), .releaseConnection (.v4 2)] := by
  rintro ⟨haccounted, -⟩
  have hopened := (haccounted _ List.prefix_rfl).opened
  exact absurd hopened (by decide)

end Aldivine.Edge.Connections

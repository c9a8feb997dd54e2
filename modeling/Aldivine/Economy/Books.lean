import Aldivine.Economy.Model
import Aldivine.Foundation.Execution
import Mathlib.Algebra.Order.Ring.Int

namespace Aldivine.Economy.Books

open Foundation.Execution Foundation.Machine Foundation.Table Core.PlayerId Model

def flow (player : AldivinePlayerId) (kind : AccountKind) : Op → ℤ
  | .credit p k amount => if (player, kind) = (p, k) then amount.toNat else 0
  | .debit p k amount => if (player, kind) = (p, k) then -amount.toNat else 0
  | .transfer txn =>
    (if (player, kind) = (txn.toPlayer, txn.toAccount) then (txn.amount.toNat : ℤ) else 0) -
      if (player, kind) = (txn.fromPlayer, txn.fromAccount) then (txn.amount.toNat : ℤ) else 0

def minted : Op → ℤ
  | .credit _ _ amount => amount.toNat
  | .debit _ _ amount => -amount.toNat
  | .transfer _ => 0

def transferred : Op → Option Transaction
  | .transfer txn => some txn
  | _ => none

def accepted (history : List (Op × Result)) : List Op :=
  (history.filter (·.2 = .ok ())).map Prod.fst

/-- The service agrees with the calls it accepted, and refuses without a trace. -/
structure Accounted (mode : Overflow) (s : EconomyService) (history : List (Op × Result)) :
    Prop where
  balances : ∀ player kind, ((s.balance player kind).toNat : ℤ) =
    ((accepted history).map (flow player kind)).sum
  supply : ∃ m, s.moneySupply mode = some m ∧ (m.toNat : ℤ) = ((accepted history).map minted).sum
  ledger : s.ledger = (accepted history).filterMap transferred
  refused : ∀ op e, (step mode s op).2 = .err e →
    (∀ player kind, (step mode s op).1.balance player kind = s.balance player kind) ∧
      (step mode s op).1.ledger = s.ledger

/-- A credit leaves the money in circulation below `2 ^ 64`, or panics on its own account. -/
def CreditFits (mode : Overflow) (s : EconomyService) : Op → Prop
  | .credit player kind amount =>
    amount = 0 ∨ totalBalance s + amount.toNat < 2 ^ 64 ∨
      (mode = .panics ∧ 2 ^ 64 ≤ (s.balance player kind).toNat + amount.toNat)
  | _ => True

instance (mode : Overflow) (s : EconomyService) (op : Op) : Decidable (CreditFits mode s op) := by
  cases op <;> unfold CreditFits <;> infer_instance

/-- The service with the money of a transfer moved and the transfer written down. -/
def move (s : EconomyService) (txn : Transaction) (sum : BitVec 64) : EconomyService :=
  let debited := s.put txn.fromPlayer txn.fromAccount
    (s.balance txn.fromPlayer txn.fromAccount - txn.amount)
  { debited.put txn.toPlayer txn.toAccount sum with ledger := s.ledger ++ [txn] }

inductive Called (mode : Overflow) (s : EconomyService) : Op → EconomyService → Result → Prop
  | refused {op : Op} {s' : EconomyService} {e : EconomyError}
      (hbalance : ∀ player kind, s'.balance player kind = s.balance player kind)
      (htotal : totalBalance s' = totalBalance s) (hledger : s'.ledger = s.ledger) :
      Called mode s op s' (.err e)
  | credited {player : AldivinePlayerId} {kind : AccountKind} {amount sum : BitVec 64}
      (hpos : amount ≠ 0) (hsum : mode.add (s.balance player kind) amount = some sum) :
      Called mode s (.credit player kind amount) (s.put player kind sum) (.ok ())
  | creditPanic {player : AldivinePlayerId} {kind : AccountKind} {amount : BitVec 64} :
      Called mode s (.credit player kind amount) (s.put player kind (s.balance player kind)) .panic
  | debited {player : AldivinePlayerId} {kind : AccountKind} {amount : BitVec 64}
      (hle : amount ≤ s.balance player kind) :
      Called mode s (.debit player kind amount)
        (s.put player kind (s.balance player kind - amount)) (.ok ())
  | moved {txn : Transaction} {sum : BitVec 64}
      (hne : (txn.toPlayer, txn.toAccount) ≠ (txn.fromPlayer, txn.fromAccount))
      (hle : txn.amount ≤ s.balance txn.fromPlayer txn.fromAccount)
      (hsum : mode.add (s.balance txn.toPlayer txn.toAccount) txn.amount = some sum) :
      Called mode s (.transfer txn) (move s txn sum) (.ok ())
  | movePanic {txn : Transaction} {s' : EconomyService}
      (hne : (txn.toPlayer, txn.toAccount) ≠ (txn.fromPlayer, txn.fromAccount))
      (hle : txn.amount ≤ s.balance txn.fromPlayer txn.fromAccount)
      (hsum : mode.add (s.balance txn.toPlayer txn.toAccount) txn.amount = none) :
      Called mode s (.transfer txn) s' .panic

variable {mode : Overflow} {s : EconomyService} {player : AldivinePlayerId} {kind : AccountKind}
  {amount : BitVec 64}

theorem balance_put_balance (p : AldivinePlayerId) (k : AccountKind) :
    (s.put player kind (s.balance player kind)).balance p k = s.balance p k := by
  by_cases h : (p, k) = (player, kind)
  · cases h
    exact balance_put_self
  · exact balance_put_ne h

theorem totalBalance_put_balance :
    totalBalance (s.put player kind (s.balance player kind)) = totalBalance s :=
  Nat.add_right_cancel totalBalance_put

theorem credit_called : Called mode s (.credit player kind amount)
    (s.credit mode player kind amount).1 (s.credit mode player kind amount).2 := by
  unfold EconomyService.credit
  split
  · exact .refused (fun _ _ ↦ rfl) rfl rfl
  · dsimp only
    cases hsum : mode.add (s.balance player kind) amount with
    | none => exact .creditPanic
    | some sum => exact .credited ‹_› hsum

theorem debit_cases (s : EconomyService) (player : AldivinePlayerId) (kind : AccountKind)
    (amount : BitVec 64) :
    (∃ s' e, s.debit player kind amount = (s', .err e) ∧
      (∀ p k, s'.balance p k = s.balance p k) ∧ totalBalance s' = totalBalance s ∧
      s'.ledger = s.ledger) ∨
    (amount ≤ s.balance player kind ∧
      s.debit player kind amount =
        (s.put player kind (s.balance player kind - amount), .ok ())) := by
  unfold EconomyService.debit
  split
  · exact .inl ⟨_, _, rfl, fun _ _ ↦ rfl, rfl, rfl⟩
  dsimp only
  split
  · exact .inl ⟨_, _, rfl, balance_put_balance, totalBalance_put_balance, rfl⟩
  · exact .inr ⟨BitVec.not_lt.mp ‹_›, rfl⟩

theorem transfer_called (txn : Transaction) :
    Called mode s (.transfer txn) (s.transfer mode txn).1 (s.transfer mode txn).2 := by
  unfold EconomyService.transfer
  split
  · exact .refused (fun _ _ ↦ rfl) rfl rfl
  split
  · exact .refused (fun _ _ ↦ rfl) rfl rfl
  rename_i hpos hself
  have hne : (txn.toPlayer, txn.toAccount) ≠ (txn.fromPlayer, txn.fromAccount) := by
    intro h
    obtain ⟨hplayer, haccount⟩ := Prod.mk.inj h
    exact hself ⟨hplayer.symm, haccount.symm⟩
  rcases debit_cases s txn.fromPlayer txn.fromAccount txn.amount with
    ⟨s', e, he, hbalance, htotal, hledger⟩ | ⟨hle, he⟩
  · rw [he]
    exact .refused hbalance htotal hledger
  rw [he]
  simp only [EconomyService.credit, if_neg hpos, balance_put_ne hne]
  cases hsum : mode.add (s.balance txn.toPlayer txn.toAccount) txn.amount with
  | none => exact .movePanic hne hle hsum
  | some sum => exact .moved hne hle hsum

theorem step_called (op : Op) : Called mode s op (step mode s op).1 (step mode s op).2 := by
  cases op with
  | credit player kind amount => exact credit_called
  | debit player kind amount =>
    simp only [step]
    rcases debit_cases s player kind amount with ⟨s', e, he, hbalance, htotal, hledger⟩ | ⟨hle, he⟩
    · rw [he]
      exact .refused hbalance htotal hledger
    · rw [he]
      exact .debited hle
  | transfer txn => exact transfer_called txn

theorem accepted_ok (history : List (Op × Result)) (op : Op) :
    accepted (history ++ [(op, .ok ())]) = accepted history ++ [op] := by
  simp [accepted]

theorem accepted_other (history : List (Op × Result)) (op : Op) {out : Result}
    (h : out ≠ .ok ()) : accepted (history ++ [(op, out)]) = accepted history := by
  simp [accepted, h]

theorem sum_accepted_ok (g : Op → ℤ) (history : List (Op × Result)) (op : Op) :
    ((accepted (history ++ [(op, .ok ())])).map g).sum =
      ((accepted history).map g).sum + g op := by
  rw [accepted_ok, List.map_append, List.sum_append, List.map_singleton, List.sum_singleton]

theorem moneySupply_eq : s.moneySupply mode = mode.word 64 (totalBalance s) :=
  sumOf_some _ _

/-- The money in circulation is what was minted, and can be counted. -/
def Kept (s : EconomyService) (history : List (Op × Result)) : Prop :=
  (totalBalance s : ℤ) = ((accepted history).map minted).sum ∧ totalBalance s < 2 ^ 64

theorem kept_supply {history : List (Op × Result)} (h : Kept s history) :
    ∃ m, s.moneySupply mode = some m ∧
      (m.toNat : ℤ) = ((accepted history).map minted).sum := by
  refine ⟨_, moneySupply_eq.trans (word_of_lt h.2), ?_⟩
  rw [BitVec.toNat_ofNat, Nat.mod_eq_of_lt h.2]
  exact h.1

theorem totalBalance_move {txn : Transaction} {sum : BitVec 64}
    (hne : (txn.toPlayer, txn.toAccount) ≠ (txn.fromPlayer, txn.fromAccount)) :
    totalBalance (move s txn sum) + (s.balance txn.toPlayer txn.toAccount).toNat +
        (s.balance txn.fromPlayer txn.fromAccount).toNat =
      totalBalance s + sum.toNat +
        (s.balance txn.fromPlayer txn.fromAccount - txn.amount).toNat := by
  have hfrom : totalBalance (s.put txn.fromPlayer txn.fromAccount
        (s.balance txn.fromPlayer txn.fromAccount - txn.amount)) +
      (s.balance txn.fromPlayer txn.fromAccount).toNat = totalBalance s +
        (s.balance txn.fromPlayer txn.fromAccount - txn.amount).toNat := totalBalance_put
  have hto : totalBalance (move s txn sum) + ((s.put txn.fromPlayer txn.fromAccount
        (s.balance txn.fromPlayer txn.fromAccount - txn.amount)).balance txn.toPlayer
        txn.toAccount).toNat =
      totalBalance (s.put txn.fromPlayer txn.fromAccount
        (s.balance txn.fromPlayer txn.fromAccount - txn.amount)) + sum.toNat := totalBalance_put
  rw [balance_put_ne hne] at hto
  omega

/-- What is moved between two accounts was in circulation before. -/
theorem move_fits {txn : Transaction} (hs : totalBalance s < 2 ^ 64)
    (hne : (txn.toPlayer, txn.toAccount) ≠ (txn.fromPlayer, txn.fromAccount))
    (hle : txn.amount ≤ s.balance txn.fromPlayer txn.fromAccount) :
    (s.balance txn.toPlayer txn.toAccount).toNat + txn.amount.toNat < 2 ^ 64 := by
  have htwo : _ ≤ totalBalance s := two_balances_le hne
  have hamount := BitVec.le_def.mp hle
  omega

theorem move_add_ne_none {txn : Transaction} (hs : totalBalance s < 2 ^ 64)
    (hne : (txn.toPlayer, txn.toAccount) ≠ (txn.fromPlayer, txn.fromAccount))
    (hle : txn.amount ≤ s.balance txn.fromPlayer txn.fromAccount) :
    mode.add (s.balance txn.toPlayer txn.toAccount) txn.amount ≠ none := by
  rw [Overflow.add, word_of_lt (move_fits hs hne hle)]
  exact Option.some_ne_none _

theorem credit_exact {sum : BitVec 64} (hfits : CreditFits mode s (.credit player kind amount))
    (hpos : amount ≠ 0) (hsum : mode.add (s.balance player kind) amount = some sum) :
    totalBalance s + amount.toNat < 2 ^ 64 ∧
      sum.toNat = (s.balance player kind).toNat + amount.toNat := by
  have hlt : totalBalance s + amount.toNat < 2 ^ 64 := by
    rcases hfits with hzero | hlt | ⟨hmode, hover⟩
    · exact absurd hzero hpos
    · exact hlt
    · have := (word_toNat hsum).2 hmode
      omega
  have hle : (s.balance player kind).toNat ≤ totalBalance s := balance_le_total
  exact ⟨hlt, word_exact hsum (fun _ ↦ by omega)⟩

theorem called_kept {history : List (Op × Result)} {op : Op} {s' : EconomyService} {out : Result}
    (hcall : Called mode s op s' out) (h : Kept s history) (hfits : CreditFits mode s op) :
    Kept s' (history ++ [(op, out)]) := by
  obtain ⟨htotal, hlt⟩ := h
  cases hcall with
  | refused hbalance hsame hledger =>
    rw [Kept, accepted_other _ _ (fun h ↦ by cases h), hsame]
    exact ⟨htotal, hlt⟩
  | creditPanic =>
    rw [Kept, accepted_other _ _ (fun h ↦ by cases h), totalBalance_put_balance]
    exact ⟨htotal, hlt⟩
  | @credited player kind amount sum hpos hsum =>
    obtain ⟨hnext, hexact⟩ := credit_exact hfits hpos hsum
    have hput : totalBalance (s.put player kind sum) + _ = _ := totalBalance_put
    rw [Kept, sum_accepted_ok, ← htotal, minted]
    omega
  | @debited player kind amount hle =>
    have hput : totalBalance (s.put player kind (s.balance player kind - amount)) + _ = _ :=
      totalBalance_put
    have hsub := BitVec.toNat_sub_of_le hle
    have hamount := BitVec.le_def.mp hle
    rw [Kept, sum_accepted_ok, ← htotal, minted]
    omega
  | @moved txn sum hne hle hsum =>
    have hmove : totalBalance (move s txn sum) + _ + _ = _ := totalBalance_move hne
    have hexact := word_exact hsum (fun _ ↦ move_fits hlt hne hle)
    have hsub := BitVec.toNat_sub_of_le hle
    have hamount := BitVec.le_def.mp hle
    rw [Kept, sum_accepted_ok, ← htotal, minted]
    omega
  | @movePanic txn s' hne hle hsum =>
    exact absurd hsum (move_add_ne_none hlt hne hle)

theorem called_refused {op : Op} {s' : EconomyService} {e : EconomyError}
    (hcall : Called mode s op s' (.err e)) :
    (∀ player kind, s'.balance player kind = s.balance player kind) ∧ s'.ledger = s.ledger := by
  cases hcall with
  | refused hbalance htotal hledger => exact ⟨hbalance, hledger⟩

theorem called_ledger {history : List (Op × Result)} {op : Op} {s' : EconomyService} {out : Result}
    (hcall : Called mode s op s' out) (hs : totalBalance s < 2 ^ 64)
    (h : s.ledger = (accepted history).filterMap transferred) :
    s'.ledger = (accepted (history ++ [(op, out)])).filterMap transferred := by
  cases hcall with
  | refused hbalance htotal hledger =>
    rw [accepted_other _ _ (fun h ↦ by cases h), hledger, h]
  | creditPanic =>
    rw [accepted_other _ _ (fun h ↦ by cases h)]
    exact h
  | credited | debited =>
    rw [accepted_ok, List.filterMap_append]
    exact h.trans (List.append_nil _).symm
  | moved hne hle hsum =>
    rw [accepted_ok, List.filterMap_append, ← h]
    rfl
  | @movePanic txn s' hne hle hsum =>
    exact absurd hsum (move_add_ne_none hs hne hle)

theorem flow_credit {p : AldivinePlayerId} {k : AccountKind} {sum : BitVec 64}
    (hexact : sum.toNat = (s.balance p k).toNat + amount.toNat) :
    (((s.put p k sum).balance player kind).toNat : ℤ) =
      (s.balance player kind).toNat + flow player kind (.credit p k amount) := by
  rw [flow]
  split
  · rename_i heq
    obtain ⟨rfl, rfl⟩ := Prod.mk.inj heq
    rw [balance_put_self]
    omega
  · rw [balance_put_ne ‹_›]
    omega

theorem flow_debit {p : AldivinePlayerId} {k : AccountKind} (hle : amount ≤ s.balance p k) :
    (((s.put p k (s.balance p k - amount)).balance player kind).toNat : ℤ) =
      (s.balance player kind).toNat + flow player kind (.debit p k amount) := by
  have hsub := BitVec.toNat_sub_of_le hle
  have hamount := BitVec.le_def.mp hle
  rw [flow]
  split
  · rename_i heq
    obtain ⟨rfl, rfl⟩ := Prod.mk.inj heq
    rw [balance_put_self]
    omega
  · rw [balance_put_ne ‹_›]
    omega

/-- A transfer is a debit of one account and a credit of another. -/
theorem flow_move {txn : Transaction} {sum : BitVec 64}
    (hne : (txn.toPlayer, txn.toAccount) ≠ (txn.fromPlayer, txn.fromAccount))
    (hle : txn.amount ≤ s.balance txn.fromPlayer txn.fromAccount)
    (hexact : sum.toNat = (s.balance txn.toPlayer txn.toAccount).toNat + txn.amount.toNat) :
    (((move s txn sum).balance player kind).toNat : ℤ) =
      (s.balance player kind).toNat + flow player kind (.transfer txn) := by
  let s₁ := s.put txn.fromPlayer txn.fromAccount
    (s.balance txn.fromPlayer txn.fromAccount - txn.amount)
  have hout : ((s₁.balance player kind).toNat : ℤ) = (s.balance player kind).toNat +
      flow player kind (.debit txn.fromPlayer txn.fromAccount txn.amount) := flow_debit hle
  have hto : s₁.balance txn.toPlayer txn.toAccount = s.balance txn.toPlayer txn.toAccount :=
    balance_put_ne hne
  have hin : (((s₁.put txn.toPlayer txn.toAccount sum).balance player kind).toNat : ℤ) =
      (s₁.balance player kind).toNat +
        flow player kind (.credit txn.toPlayer txn.toAccount txn.amount) :=
    flow_credit (by rw [hto, hexact])
  have hmove : (move s txn sum).balance player kind =
      (s₁.put txn.toPlayer txn.toAccount sum).balance player kind := rfl
  rw [hmove, hin, hout]
  simp only [flow]
  split <;> split <;> omega

theorem called_balances {history : List (Op × Result)} {op : Op} {s' : EconomyService}
    {out : Result} (hcall : Called mode s op s' out) (hs : totalBalance s < 2 ^ 64)
    (hfits : CreditFits mode s op)
    (h : ((s.balance player kind).toNat : ℤ) = ((accepted history).map (flow player kind)).sum) :
    ((s'.balance player kind).toNat : ℤ) =
      ((accepted (history ++ [(op, out)])).map (flow player kind)).sum := by
  cases hcall with
  | refused hbalance htotal hledger =>
    rw [accepted_other _ _ (fun h ↦ by cases h), hbalance, h]
  | creditPanic =>
    rw [accepted_other _ _ (fun h ↦ by cases h), balance_put_balance, h]
  | credited hpos hsum =>
    rw [sum_accepted_ok, ← h]
    exact flow_credit (credit_exact hfits hpos hsum).2
  | debited hle =>
    rw [sum_accepted_ok, ← h]
    exact flow_debit hle
  | moved hne hle hsum =>
    rw [sum_accepted_ok, ← h]
    exact flow_move hne hle (word_exact hsum (fun _ ↦ move_fits hs hne hle))
  | @movePanic txn s' hne hle hsum =>
    exact absurd hsum (move_add_ne_none hs hne hle)

/-- A credit that is not covered by the condition is accepted, and then the money in circulation is
more than a `u64` can hold. -/
theorem creditFits_of_accounted {history : List (Op × Result)} {op : Op} (h : Kept s history)
    (hnext : Accounted mode (step mode s op).1 (history ++ [(op, (step mode s op).2)])) :
    CreditFits mode s op := by
  cases op with
  | debit | transfer => trivial
  | credit player kind amount =>
    by_contra hfits
    simp only [CreditFits, not_or, not_and, not_lt, not_le] at hfits
    obtain ⟨hpos, hover, hpanic⟩ := hfits
    have hword : mode.add (s.balance player kind) amount = some (.ofNat 64
        ((s.balance player kind).toNat + amount.toNat)) := by
      cases mode with
      | wraps => exact if_pos (.inr rfl)
      | panics => exact word_of_lt (hpanic rfl)
    have hok : (step mode s (.credit player kind amount)).2 = .ok () := by
      simp only [step, EconomyService.credit, if_neg hpos, hword]
    obtain ⟨m, -, hm⟩ := hnext.supply
    rw [hok, sum_accepted_ok, ← h.1, minted] at hm
    have hlt := m.isLt
    omega

theorem accounted_new : Accounted mode .new [] where
  balances _ _ := rfl
  supply := ⟨0, by cases mode <;> rfl, rfl⟩
  ledger := rfl
  refused op _ he := called_refused (he ▸ step_called op)

/-- The books are right after every call of a run exactly when every credit of it fits. -/
theorem books_balance_iff (mode : Overflow) (ops : List Op) :
    (∀ before, before <+: ops →
      Accounted mode (run (step mode) .new before) (answers (step mode) .new before)) ↔
    ∀ x ∈ trace (step mode) .new ops, CreditFits mode x.1 x.2 := by
  refine answers_run_iff (B := Kept) (I := Accounted mode) (P := CreditFits mode)
    (fun s history op ↦ called_kept (step_called op)) (fun s history op hkept h ↦ ?_)
    ⟨rfl, by decide⟩ accounted_new ops
  refine ⟨creditFits_of_accounted hkept, fun hfits ↦ ?_⟩
  have hcall : Called mode s op (step mode s op).1 (step mode s op).2 := step_called op
  exact {
    balances := fun player kind ↦ called_balances hcall hkept.2 hfits (h.balances player kind)
    supply := kept_supply (called_kept hcall hkept hfits)
    ledger := called_ledger hcall hkept.2 h.ledger
    refused := fun op' _ he ↦ called_refused (he ▸ step_called op') }

def overflowRun (second : AccountKind) : List Op :=
  [.credit ⟨1⟩ .cash 0xFFFFFFFFFFFFFFFF, .credit ⟨1⟩ second 1]

theorem overflowRun_unaccounted :
    ¬Accounted .wraps (run (step .wraps) .new (overflowRun .cash))
      (answers (step .wraps) .new (overflowRun .cash)) ∧
    ¬Accounted .panics (run (step .panics) .new (overflowRun .bank))
      (answers (step .panics) .new (overflowRun .bank)) := by
  refine ⟨fun h ↦ absurd (h.balances ⟨1⟩ .cash) (by decide), fun h ↦ ?_⟩
  obtain ⟨m, hm, -⟩ := h.supply
  cases hm

end Aldivine.Economy.Books

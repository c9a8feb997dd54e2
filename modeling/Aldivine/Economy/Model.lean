import Aldivine.Core.Basics
import Aldivine.Foundation.Machine
import Aldivine.Foundation.Table

namespace Aldivine.Economy.Model

open Foundation.Machine Foundation.Table Core.PlayerId

inductive AccountKind
  | cash
  | bank
  | organization
deriving DecidableEq

structure Transaction where
  id : String
  fromPlayer : AldivinePlayerId
  fromAccount : AccountKind
  toPlayer : AldivinePlayerId
  toAccount : AccountKind
  amount : BitVec 64
  reason : String
deriving DecidableEq

inductive EconomyError
  | insufficientFunds (held need : BitVec 64)
  | nonPositiveAmount
  | selfTransfer
  | inconsistent (account : String)
deriving DecidableEq

abbrev Result := Outcome EconomyError Unit

structure EconomyService where
  balances : AList (fun _ : AldivinePlayerId × AccountKind ↦ BitVec 64)
  ledger : List Transaction

namespace EconomyService

def new : EconomyService := ⟨∅, []⟩

def balance (s : EconomyService) (player : AldivinePlayerId) (kind : AccountKind) : BitVec 64 :=
  (s.balances.lookup (player, kind)).getD 0

def put (s : EconomyService) (player : AldivinePlayerId) (kind : AccountKind)
    (amount : BitVec 64) : EconomyService :=
  { s with balances := s.balances.insert (player, kind) amount }

/-- The account springs into existence even when the addition panics. -/
def credit (mode : Overflow) (s : EconomyService) (player : AldivinePlayerId) (kind : AccountKind)
    (amount : BitVec 64) : EconomyService × Result :=
  if amount = 0 then (s, .err .nonPositiveAmount)
  else
    let entry := s.balance player kind
    match mode.add entry amount with
    | none => (s.put player kind entry, .panic)
    | some sum => (s.put player kind sum, .ok ())

def debit (s : EconomyService) (player : AldivinePlayerId) (kind : AccountKind)
    (amount : BitVec 64) : EconomyService × Result :=
  if amount = 0 then (s, .err .nonPositiveAmount)
  else
    let entry := s.balance player kind
    if entry < amount then
      (s.put player kind entry, .err (.insufficientFunds entry amount))
    else (s.put player kind (entry - amount), .ok ())

def transfer (mode : Overflow) (s : EconomyService) (txn : Transaction) :
    EconomyService × Result :=
  if txn.amount = 0 then (s, .err .nonPositiveAmount)
  else if txn.fromPlayer = txn.toPlayer ∧ txn.fromAccount = txn.toAccount then
    (s, .err .selfTransfer)
  else
    match s.debit txn.fromPlayer txn.fromAccount txn.amount with
    | (s, .ok ()) =>
      match s.credit mode txn.toPlayer txn.toAccount txn.amount with
      | (s, .ok ()) => ({ s with ledger := s.ledger ++ [txn] }, .ok ())
      | r => r
    | r => r

/-- The sum of all balances; it does not depend on the order in which they are added. -/
def moneySupply (mode : Overflow) (s : EconomyService) : Option (BitVec 64) :=
  mode.sumOf (fun e ↦ some e.2) s.balances.entries

end EconomyService

inductive Op
  | credit (player : AldivinePlayerId) (kind : AccountKind) (amount : BitVec 64)
  | debit (player : AldivinePlayerId) (kind : AccountKind) (amount : BitVec 64)
  | transfer (txn : Transaction)
deriving DecidableEq

def step (mode : Overflow) (s : EconomyService) : Op → EconomyService × Result
  | .credit player kind amount => s.credit mode player kind amount
  | .debit player kind amount => s.debit player kind amount
  | .transfer txn => s.transfer mode txn

section Entries

variable {s : EconomyService} {player : AldivinePlayerId} {kind : AccountKind}
  {amount : BitVec 64}

theorem balance_put_self : (s.put player kind amount).balance player kind = amount := by
  rw [EconomyService.balance, EconomyService.put, AList.lookup_insert]
  rfl

theorem balance_put_ne {p : AldivinePlayerId} {k : AccountKind} (h : (p, k) ≠ (player, kind)) :
    (s.put player kind amount).balance p k = s.balance p k := by
  rw [EconomyService.balance, EconomyService.put, AList.lookup_insert_ne h, EconomyService.balance]

def totalBalance (s : EconomyService) : ℕ := total BitVec.toNat s.balances

theorem totalBalance_put :
    totalBalance (s.put player kind amount) + (s.balance player kind).toNat =
      totalBalance s + amount.toNat := by
  unfold totalBalance EconomyService.put EconomyService.balance
  cases hl : s.balances.lookup (player, kind) with
  | none =>
    have hnew := total_insert_new BitVec.toNat amount hl
    simp only [Option.getD_none, BitVec.ofNat_eq_ofNat, BitVec.toNat_ofNat, Nat.zero_mod,
      Nat.add_zero]
    exact hnew
  | some old => exact total_insert_old BitVec.toNat amount hl

theorem balance_le_total : (s.balance player kind).toNat ≤ totalBalance s := by
  unfold EconomyService.balance
  cases hl : s.balances.lookup (player, kind) with
  | none => exact Nat.zero_le _
  | some old => exact le_total BitVec.toNat hl

theorem two_balances_le {p : AldivinePlayerId} {k : AccountKind} (h : (p, k) ≠ (player, kind)) :
    (s.balance p k).toNat + (s.balance player kind).toNat ≤ totalBalance s := by
  have hput : totalBalance (s.put player kind 0) + (s.balance player kind).toNat =
      totalBalance s + (0 : BitVec 64).toNat := totalBalance_put
  have hle : ((s.put player kind 0).balance p k).toNat ≤ totalBalance (s.put player kind 0) :=
    balance_le_total
  rw [balance_put_ne h] at hle
  have hzero : (0 : BitVec 64).toNat = 0 := rfl
  omega

end Entries

end Aldivine.Economy.Model

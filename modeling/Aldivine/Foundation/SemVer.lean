import Mathlib.Data.List.TakeWhile

namespace Aldivine.Foundation.SemVer

inductive Identifier
  | numeric (n : ℕ)
  | text (chars : List Char)
deriving DecidableEq

/-- A semantic version; build metadata is kept and takes no part in the order. -/
structure Version where
  major : ℕ
  minor : ℕ
  patch : ℕ
  pre : List Identifier
  build : List (List Char)
deriving DecidableEq

section Parsing

def cut (c : Char) (chars : List Char) : List Char × Option (List Char) :=
  match chars.dropWhile (· ≠ c) with
  | [] => (chars, none)
  | _ :: rest => (chars.takeWhile (· ≠ c), some rest)

def number (chars : List Char) : Option ℕ :=
  if chars.isEmpty ∨ ¬chars.all Char.isDigit then none
  else if chars.head? = some '0' ∧ chars.length ≠ 1 then none
  else some (Nat.ofDigitChars 10 chars 0)

def isField (chars : List Char) : Bool :=
  !chars.isEmpty && chars.all (fun c ↦ c.isAlphanum || c == '-')

def identifier (chars : List Char) : Option Identifier :=
  if ¬isField chars then none
  else if chars.all Char.isDigit then (number chars).map .numeric
  else some (.text chars)

def prerelease : Option (List Char) → Option (List Identifier)
  | none => some []
  | some chars => (chars.splitOn '.').mapM identifier

def metadata : Option (List Char) → Option (List (List Char))
  | none => some []
  | some chars => if (chars.splitOn '.').all isField then some (chars.splitOn '.') else none

def parse (s : String) : Option Version :=
  let (main, build) := cut '+' s.toList
  let (core, pre) := cut '-' main
  match core.splitOn '.' with
  | [major, minor, patch] => do
    return ⟨← number major, ← number minor, ← number patch, ← prerelease pre, ← metadata build⟩
  | _ => none

theorem cut_eq (c : Char) (chars : List Char) :
    c ∉ (cut c chars).1 ∧ ((cut c chars).2 = none ∧ (cut c chars).1 = chars ∨
      ∃ rest, (cut c chars).2 = some rest ∧ (cut c chars).1 ++ c :: rest = chars) := by
  have hparts := List.takeWhile_append_dropWhile (p := (fun d ↦ decide (d ≠ c))) (l := chars)
  have hbefore : c ∉ chars.takeWhile (· ≠ c) := by
    intro hmem
    simpa using List.mem_takeWhile_imp hmem
  unfold cut
  cases hdrop : chars.dropWhile (· ≠ c) with
  | nil =>
    rw [hdrop, List.append_nil] at hparts
    rw [hparts] at hbefore
    exact ⟨hbefore, .inl ⟨rfl, rfl⟩⟩
  | cons d rest =>
    have hhead := List.head_dropWhile_not (fun d ↦ decide (d ≠ c)) (by rw [hdrop]; simp)
    simp only [hdrop, List.head_cons] at hhead
    obtain rfl : d = c := by simpa using hhead
    rw [hdrop] at hparts
    exact ⟨hbefore, .inr ⟨rest, rfl, hparts⟩⟩

theorem number_eq {chars : List Char} {n : ℕ} (h : number chars = some n) :
    chars ≠ [] ∧ chars.all Char.isDigit ∧ n = Nat.ofDigitChars 10 chars 0 := by
  unfold number at h
  split at h
  · cases h
  · rename_i hdigits
    split at h
    · cases h
    · cases h
      simpa [not_or] using hdigits

end Parsing

section Precedence

/-- Numbers come before texts, which are ordered by their characters. -/
def Identifier.compare : Identifier → Identifier → Ordering
  | .numeric m, .numeric n => Ord.compare m n
  | .numeric _, .text _ => .lt
  | .text _, .numeric _ => .gt
  | .text a, .text b => List.compareLex (fun c d ↦ Ord.compare c.toNat d.toNat) a b

def comparePre : List Identifier → List Identifier → Ordering
  | [], [] => .eq
  | [], _ :: _ => .gt
  | _ :: _, [] => .lt
  | a :: as, b :: bs => List.compareLex Identifier.compare (a :: as) (b :: bs)

def Version.precedence (v w : Version) : Ordering :=
  (compare v.major w.major).then <| (compare v.minor w.minor).then <|
    (compare v.patch w.patch).then <| comparePre v.pre w.pre

def Higher (a b : String) : Prop :=
  ∃ v w, parse a = some v ∧ parse b = some w ∧ v.precedence w = .gt

end Precedence

end Aldivine.Foundation.SemVer

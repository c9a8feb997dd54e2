import Aldivine.Dotnet.Image
import Aldivine.Foundation.Fallible
import Aldivine.Foundation.Decimals
import Aldivine.Foundation.Table
import Aldivine.Foundation.Graphs
import Mathlib.Data.List.Lex

namespace Aldivine.Dotnet.Plans

open Foundation.Fallible Foundation.Numerals Image

structure Loaded where
  image : CliImage
  path : String

def Loaded.identity (l : Loaded) : Option AssemblyIdentity := l.image.assembly

def Loaded.name (l : Loaded) : String := (l.identity.map (·.name)).getD ""

def Loaded.version (l : Loaded) : String := (l.identity.map (·.version)).getD ""

inductive Resolved
  | ok (version : String) (trusted : Bool)
  | upgraded (requested found : String)
deriving DecidableEq

structure TrustList where
  tokens : List String

def TrustList.contains (trust : TrustList) (token : String) : Bool := trust.tokens.contains token

inductive ClrError
  | missingDependency («from» reference : String)
  | versionDowngrade (reference found requested «from» : String)
  | untrusted (reference token : String)
  | cycle (members : String)
deriving DecidableEq

def versionTuple (v : String) : List ℕ :=
  let parts := ((v.toList.splitOn '.').take 4).map (fun p ↦ (parseUnsigned 32 p).getD 0)
  parts ++ List.replicate (4 - parts.length) 0

def satisfies (requested found : String) : Bool := versionTuple requested ≤ versionTuple found

abbrev Edge := String × String × Resolved

structure LoadPlan where
  order : List String
  edges : List Edge
deriving DecidableEq

abbrev AssemblySet := AList (fun _ : String ↦ Loaded)

inductive Mark
  | inStack
  | done
deriving DecidableEq

structure Search where
  state : AList (fun _ : String ↦ Mark)
  order : List String
  edges : List Edge

def Search.enter (s : Search) (name : String) : Search :=
  { s with state := s.state.insert name .inStack }

def Search.leave (s : Search) (name : String) : Search :=
  { s with state := s.state.insert name .done, order := s.order ++ [name] }

variable (set : AssemblySet) (trust : TrustList)

def checkToken (r : AssemblyRef) : Except ClrError Unit :=
  match r.publicKeyToken with
  | some tok => refuse (¬trust.contains tok) (.untrusted r.name tok)
  | none => .ok ()

/-- One round of the loop over the references, up to the recursive call. -/
def checkRef («from» : String) (r : AssemblyRef) : Except ClrError Resolved := do
  let found ← okOr (set.lookup r.name) (.missingDependency «from» r.name)
  let fv := found.version
  refuse (¬satisfies r.version fv) (.versionDowngrade r.name fv r.version «from»)
  checkToken trust r
  return if fv = r.version then .ok fv r.publicKeyToken.isSome else .upgraded r.version fv

/-- The loop over the references; `visit` is the recursive call, and `none` means that it did not
come back within the depth. -/
def follow (visit : String → Search → Option (Except ClrError Search)) («from» : String) :
    List AssemblyRef → Search → Option (Except ClrError Search)
  | [], s => some (.ok s)
  | r :: references, s =>
    match checkRef set trust «from» r with
    | .error e => some (.error e)
    | .ok resolved =>
      match visit r.name { s with edges := s.edges ++ [(«from», r.name, resolved)] } with
      | some (.ok s) => follow visit «from» references s
      | result => result

def dfs : ℕ → String → Search → Option (Except ClrError Search)
  | 0, _, _ => none
  | depth + 1, name, s =>
    match s.state.lookup name with
    | some .done => some (.ok s)
    | some .inStack =>
      some (.error (.cycle (String.intercalate " -> " (s.order.dropWhile (· ≠ name) ++ [name]))))
    | none =>
      match set.lookup name with
      | none => some (.error (.missingDependency "(root)" name))
      | some node =>
        match follow set trust (dfs depth) node.name node.image.references (s.enter name) with
        | some (.ok s) => some (.ok (s.leave name))
        | result => result

def planLoad (depth : ℕ) (root : String) : Option (Except ClrError LoadPlan) :=
  (dfs set trust depth root ⟨∅, [], []⟩).map (fun result ↦ result.map (fun s ↦ ⟨s.order, s.edges⟩))

end Aldivine.Dotnet.Plans

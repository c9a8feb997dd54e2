import Aldivine.Foundation.Table
import Aldivine.Streaming.Caches

namespace Aldivine.Caches.Model

open Foundation.Table
open Streaming.Caches (CacheError validHash)

/-- The objects on disk, by their hash; the sizes of the tracked ones; and these from the one that
was not used for longest to the last used. -/
structure ContentCache where
  quotaBytes : ℕ
  files : AList (fun _ : String ↦ List UInt8)
  sizes : AList (fun _ : String ↦ ℕ)
  lru : List String

structure HealthReport where
  ok : ℕ
  corrupt : List String
deriving DecidableEq

def objectPath (hash : String) : String × String :=
  (String.ofList (hash.toList.take 2), String.ofList (hash.toList.drop 2))

namespace ContentCache

/-- `open` on a directory with the given objects, whose files were changed at the given times. -/
def openDir (quotaBytes : ℕ) (files : AList (fun _ : String ↦ List UInt8)) (mtime : String → ℕ) :
    ContentCache :=
  let found := (files.entries.filter (fun f ↦ validHash f.1)).mergeSort
    (fun f g ↦ mtime f.1 ≤ mtime g.1)
  { quotaBytes := quotaBytes
    files := files
    sizes := found.foldl (fun sizes f ↦ sizes.insert f.1 f.2.length) ∅
    lru := found.map Sigma.fst }

def touch (c : ContentCache) (hash : String) : ContentCache :=
  { c with lru := c.lru.filter (fun h ↦ decide (h ≠ hash)) ++ [hash] }

def forget (c : ContentCache) (hash : String) : ContentCache :=
  { c with
      files := c.files.erase hash
      sizes := c.sizes.erase hash
      lru := c.lru.filter (fun h ↦ decide (h ≠ hash)) }

def sizeBytes (c : ContentCache) : ℕ := total id c.sizes

section Hashing

variable (sha256Hex : List UInt8 → String)

/-- What landed is hashed again. -/
def land (c : ContentCache) (expected : String) (landed : List UInt8) :
    ContentCache × Except CacheError (String × String) :=
  if sha256Hex landed ≠ expected then
    ({ c with files := c.files.erase expected }, .error (.hashMismatch expected (sha256Hex landed)))
  else
    (touch { c with sizes := c.sizes.insert expected landed.length } expected,
      .ok (objectPath expected))

/-- `commit` of a staged file with the given bytes, or of one that is gone. -/
def commit (c : ContentCache) (staged : Option (List UInt8)) (expected : String) :
    ContentCache × Except CacheError (String × String) :=
  if !validHash expected then (c, .error (.badHash expected))
  else
    match staged with
    | none => (c, .error .noSuchStaged)
    | some bytes =>
      if sha256Hex bytes ≠ expected then (c, .error (.hashMismatch expected (sha256Hex bytes)))
      else
        match c.files.lookup expected with
        | some stored => c.land sha256Hex expected stored
        | none => land sha256Hex { c with files := c.files.insert expected bytes } expected bytes

def get (c : ContentCache) (hash : String) : ContentCache × Option (String × String) :=
  if !validHash hash then (c, none)
  else if hash ∈ c.files then (c.touch hash, some (objectPath hash))
  else (c, none)

def verify (c : ContentCache) (hash : String) : Except CacheError Bool :=
  if !validHash hash then .error (.badHash hash)
  else
    match c.files.lookup hash with
    | none => .ok false
    | some bytes => .ok (sha256Hex bytes == hash)

def verifyHashes (c : ContentCache) : List String → Except CacheError HealthReport
  | [] => .ok ⟨0, []⟩
  | hash :: hashes => do
    let healthy ← c.verify sha256Hex hash
    let report ← c.verifyHashes hashes
    if healthy then return { report with ok := report.ok + 1 }
    else return { report with corrupt := hash :: report.corrupt }

def verifyAll (c : ContentCache) : Except CacheError HealthReport := do
  let report ← c.verifyHashes sha256Hex c.sizes.keys
  return { report with corrupt := report.corrupt.mergeSort (fun a b ↦ a ≤ b) }

def repair (c : ContentCache) : ContentCache × Except CacheError (List String) :=
  match c.verifyAll sha256Hex with
  | .error e => (c, .error e)
  | .ok report => (report.corrupt.foldl forget c, .ok report.corrupt)

end Hashing

def victim (c : ContentCache) (kept : List String) : Option String :=
  c.lru.find? (fun h ↦ !kept.contains h)

theorem length_forget_lt {c : ContentCache} {kept : List String} {hash : String}
    (h : c.victim kept = some hash) : (c.forget hash).lru.length < c.lru.length := by
  have hmem : hash ∈ c.lru := List.mem_of_find?_eq_some h
  exact List.length_filter_lt_length_iff_exists.mpr ⟨hash, hmem, by simp⟩

/-- `evict_to_fit`: the objects of `kept` are the protected ones. -/
def evictToFit (c : ContentCache) (kept : List String) : ContentCache × List String :=
  if c.quotaBytes < c.sizeBytes then
    match _h : c.victim kept with
    | some hash =>
      let r := (c.forget hash).evictToFit kept
      (r.1, hash :: r.2)
    | none => (c, [])
  else (c, [])
termination_by c.lru.length
decreasing_by exact length_forget_lt _h

end ContentCache

end Aldivine.Caches.Model

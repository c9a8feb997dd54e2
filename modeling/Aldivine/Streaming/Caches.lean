import Mathlib.Data.List.AList

namespace Aldivine.Streaming.Caches

inductive CacheError
  | io (message : String)
  | hashMismatch (expected actual : String)
  | noSuchStaged
  | badHash (hash : String)
deriving DecidableEq

/-- What the file system does during a call: an error of writing the staged file, what it reads back
from it, an error of moving it into place, and what it reads from a stored object. -/
structure Disk where
  stageError : Option String
  readStaged : List UInt8 → Option (List UInt8)
  promoteError : Option String
  readObject : List UInt8 → Except String (List UInt8)

structure ContentCache where
  objects : AList (fun _ : String ↦ List UInt8)

def validHash (h : String) : Bool :=
  h.utf8ByteSize == 64 &&
    h.toList.all (fun c ↦ c.isDigit || ('a' ≤ c && c ≤ 'f'))

namespace ContentCache

variable (sha256 : List UInt8 → String)

/-- The last part of `commit`: what landed under the hash is read again. -/
def land (disk : Disk) (c : ContentCache) (expected : String) (stored : List UInt8) :
    ContentCache × Except CacheError Unit :=
  match disk.readObject stored with
  | .error message => (c, .error (.io message))
  | .ok landed =>
    if sha256 landed ≠ expected then
      (⟨c.objects.erase expected⟩, .error (.hashMismatch expected (sha256 landed)))
    else (c, .ok ())

/-- An object that is there already stays. -/
def commit (disk : Disk) (c : ContentCache) (staged : List UInt8) (expected : String) :
    ContentCache × Except CacheError Unit :=
  if !validHash expected then (c, .error (.badHash expected))
  else
    match disk.readStaged staged with
    | none => (c, .error .noSuchStaged)
    | some bytes =>
      if sha256 bytes ≠ expected then (c, .error (.hashMismatch expected (sha256 bytes)))
      else
        match c.objects.lookup expected with
        | some stored => c.land sha256 disk expected stored
        | none =>
          match disk.promoteError with
          | some message => (c, .error (.io message))
          | none => land sha256 disk ⟨c.objects.insert expected bytes⟩ expected bytes

/-- `stage`, and `commit` of what was staged. -/
def store (disk : Disk) (c : ContentCache) (payload : List UInt8) (expected : String) :
    ContentCache × Except CacheError Unit :=
  match disk.stageError with
  | some message => (c, .error (.io message))
  | none => c.commit sha256 disk payload expected

def verify (disk : Disk) (c : ContentCache) (hash : String) : Except CacheError Bool :=
  if !validHash hash then .error (.badHash hash)
  else
    match c.objects.lookup hash with
    | none => .ok false
    | some stored =>
      match disk.readObject stored with
      | .error message => .error (.io message)
      | .ok bytes => .ok (sha256 bytes == hash)

end ContentCache

variable {sha256 : List UInt8 → String} {disk : Disk} {c : ContentCache} {expected : String}

def Holds (sha256 : List UInt8 → String) (disk : Disk) (c : ContentCache) (hash : String) : Prop :=
  ∃ stored landed, c.objects.lookup hash = some stored ∧ disk.readObject stored = .ok landed ∧
    sha256 landed = hash

theorem land_ok {stored : List UInt8} (hstored : c.objects.lookup expected = some stored)
    (h : (c.land sha256 disk expected stored).2 = .ok ()) :
    Holds sha256 disk (c.land sha256 disk expected stored).1 expected := by
  unfold ContentCache.land at h ⊢
  cases hread : disk.readObject stored with
  | error message => simp [hread] at h
  | ok landed =>
    simp only [hread] at h ⊢
    split at h
    · cases h
    · rename_i hhash
      rw [if_neg hhash]
      exact ⟨stored, landed, hstored, hread, not_not.mp hhash⟩

theorem store_ok {payload : List UInt8} (h : (c.store sha256 disk payload expected).2 = .ok ()) :
    Holds sha256 disk (c.store sha256 disk payload expected).1 expected := by
  unfold ContentCache.store ContentCache.commit at h ⊢
  split at h
  · cases h
  · split at h
    · cases h
    · rename_i hvalid
      rw [if_neg hvalid]
      cases hread : disk.readStaged payload with
      | none => simp [hread] at h
      | some bytes =>
        simp only [hread] at h ⊢
        split at h
        · cases h
        · rename_i hhash
          rw [if_neg hhash]
          cases hobject : c.objects.lookup expected with
          | some stored =>
            simp only [hobject] at h ⊢
            exact land_ok hobject h
          | none =>
            cases hpromote : disk.promoteError with
            | some message => simp [hobject, hpromote] at h
            | none =>
              simp only [hobject, hpromote] at h ⊢
              exact land_ok (AList.lookup_insert c.objects) h

end Aldivine.Streaming.Caches

import Mathlib.Data.List.TakeWhile

namespace Aldivine.Foundation.Text

/-- The Unicode `White_Space` property, as `char::is_whitespace` reads it. -/
def isWhitespace (c : Char) : Bool :=
  let n := c.toNat
  (0x09 ≤ n && n ≤ 0x0D) || n == 0x20 || n == 0x85 || n == 0xA0 || n == 0x1680 ||
    (0x2000 ≤ n && n ≤ 0x200A) || n == 0x2028 || n == 0x2029 || n == 0x202F || n == 0x205F ||
    n == 0x3000

/-- `str::trim`: white space is dropped at both ends. -/
def trim (s : String) : String :=
  String.ofList ((s.toList.dropWhile isWhitespace).reverse.dropWhile isWhitespace).reverse

/-- `s.trim().is_empty()`. -/
def isBlank (s : String) : Bool := s.toList.all isWhitespace

def splitOnce (c : Char) (s : String) : Option (String × String) :=
  match s.toList.dropWhile (· ≠ c) with
  | [] => none
  | _ :: rest => some (String.ofList (s.toList.takeWhile (· ≠ c)), String.ofList rest)

theorem not_mem_splitOnce {c : Char} {s first rest : String}
    (h : splitOnce c s = some (first, rest)) : c ∉ first.toList := by
  unfold splitOnce at h
  split at h
  · cases h
  · cases h
    rw [String.toList_ofList]
    intro hmem
    simpa using List.mem_takeWhile_imp hmem

theorem splitOnce_eq_some {c : Char} {s first rest : String} :
    splitOnce c s = some (first, rest) ↔
      s.toList = first.toList ++ c :: rest.toList ∧ c ∉ first.toList := by
  constructor
  · intro h
    refine ⟨?_, not_mem_splitOnce h⟩
    have hwhole := List.takeWhile_append_dropWhile (p := fun x ↦ decide (x ≠ c)) (l := s.toList)
    have hhead := List.head?_dropWhile_not (fun x ↦ decide (x ≠ c)) s.toList
    unfold splitOnce at h
    split at h
    · cases h
    · rename_i x tail hdrop
      cases h
      rw [hdrop] at hwhole hhead
      have hx : x = c := by simpa using hhead
      rw [String.toList_ofList, String.toList_ofList, ← hx]
      exact hx ▸ hwhole.symm
  · rintro ⟨hs, hfirst⟩
    have hbefore (x : Char) (hx : x ∈ first.toList) : decide (x ≠ c) = true :=
      decide_eq_true (fun heq ↦ hfirst (heq ▸ hx))
    rw [splitOnce, hs, List.dropWhile_append_of_pos hbefore, List.takeWhile_append_of_pos hbefore]
    simp

theorem isBlank_empty : isBlank "" = true := by decide

theorem ne_empty_of_not_blank {s : String} (h : isBlank s = false) : s ≠ "" := by
  intro heq
  subst heq
  simp [isBlank_empty] at h

/-- Keep the longest run of whole characters that fits in `budget` bytes of UTF-8. -/
def truncateChars : ℕ → List Char → List Char
  | _, [] => []
  | budget, c :: cs =>
    if c.utf8Size ≤ budget then c :: truncateChars (budget - c.utf8Size) cs else []

/-- `str::as_bytes`. -/
def utf8 (s : String) : List UInt8 := s.toByteArray.data.toList

/-- `str::from_utf8`. -/
def ofUtf8 (bytes : List UInt8) : Option String := String.fromUTF8? ⟨bytes.toArray⟩

theorem ofUtf8_utf8 (s : String) : ofUtf8 (utf8 s) = some s := by
  have hbytes : (⟨(utf8 s).toArray⟩ : ByteArray) = s.toByteArray := by
    simp [utf8]
  rw [ofUtf8, hbytes, String.fromUTF8?, dif_pos s.isValidUTF8]
  rfl

theorem utf8_of_ofUtf8 {bytes : List UInt8} {s : String} (h : ofUtf8 bytes = some s) :
    utf8 s = bytes := by
  unfold ofUtf8 String.fromUTF8? at h
  split at h
  · cases h
    simp [utf8, String.fromUTF8]
  · cases h

theorem utf8_empty : utf8 "" = [] := rfl

theorem utf8_append (s t : String) : utf8 (s ++ t) = utf8 s ++ utf8 t := by
  simp [utf8]

theorem utf8_injective : Function.Injective utf8 := by
  intro s t h
  have hs := ofUtf8_utf8 s
  rw [h, ofUtf8_utf8] at hs
  exact (Option.some.inj hs).symm

end Aldivine.Foundation.Text

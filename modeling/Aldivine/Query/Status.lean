import Aldivine.Foundation.Pieces
import Mathlib.Data.List.Sublists
import Mathlib.Algebra.Order.Ring.Nat
import Mathlib.Tactic.Ring

namespace Aldivine.Query.Status

open Foundation.Pieces

def maxPlayersInList : ℕ := 64

def maxResponseBytes : ℕ := 8192

structure QueryPlayer where
  name : String
  label : Option String
deriving DecidableEq

/-- `extra` in the order in which the hash map is walked. -/
structure ServerStatus where
  hostname : String
  projectName : Option String
  projectDesc : Option String
  protocolVersion : UInt16
  maxClients : UInt32
  online : UInt32
  tags : List String
  locale : Option String
  gameBuild : Option String
  listed : Bool
  iconB64 : Option String
  players : List QueryPlayer
  extra : List (String × String)
  nonce : UInt32
  health : String
deriving DecidableEq

inductive QueryError
  | badLength (got want : ℕ)
  | badMagic
  | unsupportedVersion (version : UInt8)
  | tooLarge
  | render (text : String)
  | rateLimited
  | notListed
deriving DecidableEq

section Rendering

variable (toJson : ServerStatus → Except String String)

def renderJson (cur : ServerStatus) : Except QueryError String :=
  (toJson cur).mapError QueryError.render

/-- The loop, with what was shed so far. -/
def shedding (cur : ServerStatus) (shedIcon shedPlayers shedExtra : Bool) :
    Except QueryError String := do
  let s ← renderJson toJson cur
  if s.utf8ByteSize ≤ maxResponseBytes then
    return s
  else if !shedIcon then
    shedding { cur with iconB64 := none } true shedPlayers shedExtra
  else if !shedPlayers then
    shedding { cur with players := [] } shedIcon true shedExtra
  else if !shedExtra then
    shedding { cur with extra := [] } shedIcon shedPlayers true
  else
    let cur := { cur with projectDesc := none }
    if (← renderJson toJson cur).utf8ByteSize ≤ maxResponseBytes then
      renderJson toJson cur
    else
      throw .tooLarge
termination_by (!shedIcon).toNat + (!shedPlayers).toNat + (!shedExtra).toNat
decreasing_by all_goals simp_all

def ServerStatus.toNativeJson (status : ServerStatus) : Except QueryError String :=
  shedding toJson { status with players := status.players.take maxPlayersInList } false false false

end Rendering

inductive Part
  | players
  | icon
  | extra
  | desc
deriving DecidableEq

def ServerStatus.clear (status : ServerStatus) : Part → ServerStatus
  | .players => { status with players := [] }
  | .icon => { status with iconB64 := none }
  | .extra => { status with extra := [] }
  | .desc => { status with projectDesc := none }

/-- The order in which the parts are shed according to the documentation. -/
def shedOrder : List Part := [.players, .icon, .extra, .desc]

def ServerStatus.cut (status : ServerStatus) : ServerStatus :=
  { status with players := status.players.take maxPlayersInList }

def ServerStatus.shed (status : ServerStatus) (k : ℕ) : ServerStatus :=
  (shedOrder.take k).foldl ServerStatus.clear status.cut

def ServerStatus.views (status : ServerStatus) : List ServerStatus :=
  shedOrder.sublists.map (·.foldl ServerStatus.clear status.cut)

def Fits (text : String) : Prop := text.utf8ByteSize ≤ maxResponseBytes

instance : DecidablePred Fits := fun _ ↦ inferInstanceAs (Decidable (_ ≤ _))

section Shedding

variable (render : ServerStatus → String) (status : ServerStatus)

def Shrinks : Prop :=
  ∀ s ∈ status.views, ∀ part ∈ shedOrder,
    (render (s.clear part)).utf8ByteSize ≤ (render s).utf8ByteSize

instance : Decidable (Shrinks render status) :=
  inferInstanceAs (Decidable (∀ s ∈ _, ∀ part ∈ _, _ ≤ _))

def Tells : Prop :=
  ∀ s ∈ status.views, ∀ s' ∈ status.views, render s = render s' → s = s'

instance : Decidable (Tells render status) :=
  inferInstanceAs (Decidable (∀ s ∈ _, ∀ s' ∈ _, _ = _ → _ = _))

def answer : Except QueryError String := status.toNativeJson (fun s ↦ .ok (render s))

/-- The answer is the status without the fewest parts, in the documented order, that fits. -/
structure Sheds : Prop where
  ok : ∀ text, answer render status = .ok text → Fits text ∧ ∃ k, text = render (status.shed k) ∧
    (∀ j < k, ¬Fits (render (status.shed j))) ∧
    (status.shed k).hostname = status.hostname ∧ (status.shed k).online = status.online ∧
    (status.shed k).maxClients = status.maxClients
  tooLarge : answer render status = .error .tooLarge →
    ¬Fits (render (status.shed shedOrder.length))
  answers : answer render status = .error .tooLarge ∨ ∃ text, answer render status = .ok text

end Shedding

/-- The first text that fits, of a status and of what is left when the parts are cleared in turn. -/
def firstFit (render : ServerStatus → String) : ServerStatus → List Part → Except QueryError String
  | s, [] => if Fits (render s) then .ok (render s) else .error .tooLarge
  | s, part :: parts =>
    if Fits (render s) then .ok (render s) else firstFit render (s.clear part) parts

variable {render : ServerStatus → String} {status s : ServerStatus} {parts : List Part}
  {part : Part} {text : String}

section FirstFit

theorem firstFit_of_fits (h : Fits (render s)) (parts : List Part) :
    firstFit render s parts = .ok (render s) := by
  cases parts <;> exact if_pos h

theorem firstFit_cons (h : ¬Fits (render s)) :
    firstFit render s (part :: parts) = firstFit render (s.clear part) parts := if_neg h

/-- Clearing what is not there changes nothing. -/
theorem firstFit_skip (h : s.clear part = s) :
    firstFit render s (part :: parts) = firstFit render s parts := by
  by_cases hfits : Fits (render s)
  · rw [firstFit_of_fits hfits, firstFit_of_fits hfits]
  · rw [firstFit_cons hfits, h]

theorem firstFit_eq_ok (h : firstFit render s parts = .ok text) :
    Fits text ∧ ∃ k, text = render ((parts.take k).foldl ServerStatus.clear s) ∧
      ∀ j < k, ¬Fits (render ((parts.take j).foldl ServerStatus.clear s)) := by
  induction parts generalizing s with
  | nil =>
    rw [firstFit] at h
    split_ifs at h with hfits
    cases h
    exact ⟨hfits, 0, rfl, fun j hj ↦ absurd hj (Nat.not_lt_zero j)⟩
  | cons part parts ih =>
    rw [firstFit] at h
    split_ifs at h with hfits
    · cases h
      exact ⟨hfits, 0, rfl, fun j hj ↦ absurd hj (Nat.not_lt_zero j)⟩
    · obtain ⟨htext, k, heq, hbefore⟩ := ih h
      refine ⟨htext, k + 1, heq, fun j hj ↦ ?_⟩
      cases j with
      | zero => exact hfits
      | succ j => exact hbefore j (Nat.lt_of_succ_lt_succ hj)

theorem firstFit_cases (render : ServerStatus → String) (s : ServerStatus) (parts : List Part) :
    (firstFit render s parts = .error .tooLarge ∧
        ¬Fits (render (parts.foldl ServerStatus.clear s))) ∨
      ∃ text, firstFit render s parts = .ok text := by
  induction parts generalizing s with
  | nil =>
    by_cases hfits : Fits (render s)
    · exact .inr ⟨_, if_pos hfits⟩
    · exact .inl ⟨if_neg hfits, hfits⟩
  | cons part parts ih =>
    by_cases hfits : Fits (render s)
    · exact .inr ⟨_, if_pos hfits⟩
    · rw [firstFit_cons hfits]
      exact ih (s.clear part)

end FirstFit

/-- The loop clears the icon first. -/
theorem answer_eq (render : ServerStatus → String) (status : ServerStatus) :
    answer render status = firstFit render status.cut [.icon, .players, .extra, .desc] := by
  have hdesc (s : ServerStatus) : shedding (fun s ↦ .ok (render s)) s true true true =
      firstFit render s [.desc] := by
    rw [shedding]
    rfl
  have hextra (s : ServerStatus) : shedding (fun s ↦ .ok (render s)) s true true false =
      firstFit render s [.extra, .desc] := by
    rw [shedding, firstFit, ← hdesc]
    rfl
  have hplayers (s : ServerStatus) : shedding (fun s ↦ .ok (render s)) s true false false =
      firstFit render s [.players, .extra, .desc] := by
    rw [shedding, firstFit, ← hextra]
    rfl
  rw [answer, ServerStatus.toNativeJson, shedding, firstFit, ← hplayers]
  rfl

theorem shed_intact (status : ServerStatus) (k : ℕ) :
    (status.shed k).hostname = status.hostname ∧ (status.shed k).online = status.online ∧
      (status.shed k).maxClients = status.maxClients := by
  have hclear (parts : List Part) (s : ServerStatus) :
      (parts.foldl ServerStatus.clear s).hostname = s.hostname ∧
        (parts.foldl ServerStatus.clear s).online = s.online ∧
        (parts.foldl ServerStatus.clear s).maxClients = s.maxClients := by
    induction parts generalizing s with
    | nil => exact ⟨rfl, rfl, rfl⟩
    | cons part parts ih =>
      obtain ⟨hhostname, honline, hmax⟩ := ih (s.clear part)
      rw [List.foldl_cons, hhostname, honline, hmax]
      cases part <;> exact ⟨rfl, rfl, rfl⟩
  exact hclear _ status.cut

theorem sheds_of_firstFit (h : answer render status = firstFit render status.cut shedOrder) :
    Sheds render status := by
  refine ⟨fun text hok ↦ ?_, fun herror ↦ ?_, ?_⟩
  · obtain ⟨hfits, k, heq, hbefore⟩ := firstFit_eq_ok (h ▸ hok)
    exact ⟨hfits, k, heq, hbefore, shed_intact status k⟩
  · obtain ⟨-, hlast⟩ | ⟨text, hok⟩ := firstFit_cases render status.cut shedOrder
    · exact hlast
    · rw [h, hok] at herror
      cases herror
  · rw [h]
    obtain ⟨herror, -⟩ | hok := firstFit_cases render status.cut shedOrder
    · exact .inl herror
    · exact .inr hok

theorem cut_players (h : status.players = []) : status.cut.clear .players = status.cut := by
  simp [ServerStatus.cut, ServerStatus.clear, h]

theorem cut_icon (h : status.iconB64 = none) : status.cut.clear .icon = status.cut := by
  simp [ServerStatus.cut, ServerStatus.clear, h]

theorem shed_succ_players (status : ServerStatus) (k : ℕ) : (status.shed (k + 1)).players = [] := by
  have hclear (parts : List Part) (s : ServerStatus) (h : s.players = []) :
      (parts.foldl ServerStatus.clear s).players = [] := by
    induction parts generalizing s with
    | nil => exact h
    | cons part parts ih => exact ih (s.clear part) (by cases part <;> simp [ServerStatus.clear, h])
  exact hclear _ (status.cut.clear .players) rfl

theorem shed_mem_views (status : ServerStatus) (k : ℕ) : status.shed k ∈ status.views :=
  List.mem_map_of_mem (List.mem_sublists.mpr (List.take_sublist k shedOrder))

theorem icon_mem_views (status : ServerStatus) : status.cut.clear .icon ∈ status.views :=
  List.mem_map_of_mem (f := (·.foldl ServerStatus.clear status.cut))
    (List.mem_sublists.mpr (show [Part.icon].Sublist shedOrder by decide))

theorem views_induction {P : ServerStatus → Prop} (hcut : P status.cut)
    (hclear : ∀ s part, P s → P (s.clear part)) : ∀ s ∈ status.views, P s := by
  intro s hs
  obtain ⟨parts, -, rfl⟩ := List.mem_map.mp hs
  clear hs
  induction parts using List.reverseRecOn with
  | nil => exact hcut
  | append_singleton parts part ih =>
    rw [List.foldl_append]
    exact hclear _ part ih

section Json

/-- `serde_json` escapes quotes, backslashes and control characters. -/
def escape (c : Char) : List Char :=
  if c.toNat < 32 then
    if c = '\x08' then ['\\', 'b']
    else if c = '\t' then ['\\', 't']
    else if c = '\n' then ['\\', 'n']
    else if c = '\x0c' then ['\\', 'f']
    else if c = '\r' then ['\\', 'r']
    else ['\\', 'u', '0', '0', Nat.digitChar (c.toNat / 16), Nat.digitChar (c.toNat % 16)]
  else if c = '"' ∨ c = '\\' then ['\\', c]
  else [c]

def jsonString (s : String) : List Char := '"' :: (s.toList.flatMap escape ++ ['"'])

def jsonOption (s : Option String) : List Char := s.elim "null".toList jsonString

def jsonList (items : List (List Char)) : List Char :=
  '[' :: ([','].intercalate items ++ [']'])

def jsonObject (fields : List (String × List Char)) : List Char :=
  '\x7b' :: ([','].intercalate (fields.map (fun x ↦ jsonString x.1 ++ ':' :: x.2)) ++ ['\x7d'])

def jsonNumber (n : ℕ) : List Char := Nat.toDigits 10 n

def QueryPlayer.toJson (player : QueryPlayer) : List Char :=
  jsonObject [("name", jsonString player.name), ("label", jsonOption player.label)]

def ServerStatus.jsonChars (s : ServerStatus) : List Char :=
  jsonObject [("hostname", jsonString s.hostname), ("project_name", jsonOption s.projectName),
    ("project_desc", jsonOption s.projectDesc),
    ("protocol_version", jsonNumber s.protocolVersion.toNat),
    ("max_clients", jsonNumber s.maxClients.toNat), ("online", jsonNumber s.online.toNat),
    ("tags", jsonList (s.tags.map jsonString)), ("locale", jsonOption s.locale),
    ("game_build", jsonOption s.gameBuild),
    ("listed", (if s.listed then "true" else "false").toList),
    ("icon_b64", jsonOption s.iconB64), ("players", jsonList (s.players.map QueryPlayer.toJson)),
    ("extra", jsonObject (s.extra.map (fun x ↦ (x.1, jsonString x.2)))),
    ("nonce", jsonNumber s.nonce.toNat), ("health", jsonString s.health)]

/-- `serde_json::to_string`. -/
def ServerStatus.toJson (s : ServerStatus) : String := String.ofList s.jsonChars

def sample (icon : Option String) : ServerStatus :=
  { hostname := "Test Server"
    projectName := some "Test"
    projectDesc := none
    protocolVersion := 1
    maxClients := 48
    online := 3
    tags := ["roleplay"]
    locale := none
    gameBuild := none
    listed := true
    iconB64 := icon
    players := [⟨"Alice", some "Police"⟩]
    extra := []
    nonce := 0
    health := "ok" }

def bytes (l : List Char) : ℕ := (l.map Char.utf8Size).sum

theorem bytes_cons (c : Char) (l : List Char) : bytes (c :: l) = c.utf8Size + bytes l := rfl

theorem bytes_append (l l' : List Char) : bytes (l ++ l') = bytes l + bytes l' := by
  rw [bytes, List.map_append, List.sum_append, bytes, bytes]

theorem utf8ByteSize_ofList (l : List Char) : (String.ofList l).utf8ByteSize = bytes l := by
  induction l with
  | nil => rfl
  | cons c l ih =>
    rw [String.ofList_cons, String.utf8ByteSize_append, String.utf8ByteSize_singleton, ih,
      bytes_cons]

theorem length_le_utf8ByteSize (l : List Char) : l.length ≤ (String.ofList l).utf8ByteSize := by
  rw [utf8ByteSize_ofList]
  induction l with
  | nil => exact le_rfl
  | cons c l ih =>
    have hc := c.utf8Size_pos
    rw [List.length_cons, bytes_cons]
    omega

theorem escape_ne_nil (c : Char) : escape c ≠ [] := by
  unfold escape
  split_ifs <;> exact List.cons_ne_nil _ _

theorem length_le_jsonString (s : String) : s.toList.length ≤ (jsonString s).length := by
  have hescaped := length_le_flatMap (l := s.toList) (fun c _ ↦ escape_ne_nil c)
  rw [jsonString, List.length_cons, List.length_append]
  omega

theorem length_le_intercalate (sep : List Char) {part : List Char} {parts : List (List Char)}
    (h : part ∈ parts) : part.length ≤ (sep.intercalate parts).length := by
  induction parts with
  | nil => cases h
  | cons first parts ih =>
    cases parts with
    | nil => rw [List.mem_singleton.mp h, List.intercalate_singleton]
    | cons next parts =>
      rw [List.intercalate_cons_cons, List.length_append, List.length_append]
      obtain rfl | h := List.mem_cons.mp h
      · omega
      · have hrest := ih h
        omega

theorem length_le_jsonObject (key : String) {value : List Char}
    {fields : List (String × List Char)} (h : (key, value) ∈ fields) :
    value.length ≤ (jsonObject fields).length := by
  have hmem : jsonString key ++ ':' :: value ∈
      fields.map (fun x ↦ jsonString x.1 ++ ':' :: x.2) := List.mem_map.mpr ⟨_, h, rfl⟩
  have hpart := length_le_intercalate [','] hmem
  rw [List.length_append, List.length_cons] at hpart
  rw [jsonObject, List.length_cons, List.length_append]
  omega

theorem length_icon_le {icon : String} (h : s.iconB64 = some icon) :
    icon.toList.length ≤ s.toJson.utf8ByteSize := by
  calc icon.toList.length ≤ (jsonString icon).length := length_le_jsonString icon
    _ ≤ s.jsonChars.length := length_le_jsonObject "icon_b64" (by simp [h, jsonOption])
    _ ≤ s.toJson.utf8ByteSize := length_le_utf8ByteSize _

theorem bytes_jsonObject (x : String × List Char) (fields : List (String × List Char)) :
    bytes (jsonObject (x :: fields)) =
      1 + ((x :: fields).map (fun x ↦ bytes (jsonString x.1) + bytes x.2 + 2)).sum := by
  rw [jsonObject, bytes_cons, bytes_append]
  change 1 + (_ + 1) = _
  induction fields generalizing x with
  | nil =>
    rw [List.map_singleton, List.map_singleton, List.intercalate_singleton, bytes_append,
      bytes_cons, List.sum_singleton]
    change 1 + (_ + (1 + _) + 1) = _
    omega
  | cons y fields ih =>
    have hrest := ih y
    rw [List.map_cons] at hrest
    rw [List.map_cons, List.map_cons, List.intercalate_cons_cons, bytes_append, bytes_append,
      bytes_append, bytes_cons, List.map_cons, List.sum_cons]
    change 1 + (_ + (1 + _) + 1 + _ + 1) = _
    omega

/-- What a status takes without the parts that may be shed, and what each of them adds. -/
theorem size_toJson (s : ServerStatus) : s.toJson.utf8ByteSize + 12 =
    (shedOrder.foldl ServerStatus.clear s).toJson.utf8ByteSize + bytes (jsonOption s.projectDesc) +
      bytes (jsonOption s.iconB64) + bytes (jsonList (s.players.map QueryPlayer.toJson)) +
      bytes (jsonObject (s.extra.map (fun x ↦ (x.1, jsonString x.2)))) := by
  have hnone : bytes (jsonOption none) = 4 := by decide
  have hlist : bytes (jsonList []) = 2 := by decide
  have hobject : bytes (jsonObject []) = 2 := by decide
  rw [ServerStatus.toJson, ServerStatus.toJson, utf8ByteSize_ofList, utf8ByteSize_ofList]
  change bytes _ + 12 = bytes _ + _ + _ + _ + _
  by_cases hlisted : s.listed = true <;>
  · simp only [ServerStatus.jsonChars, bytes_jsonObject, List.map_cons, List.map_nil, List.sum_cons,
      shedOrder, List.foldl_cons, List.foldl_nil, ServerStatus.clear, hnone, hlist, hobject,
      hlisted, if_true]
    ring

end Json

/-- The order is kept exactly when the status fits as it is, when there are no players or there is
no icon to choose between, or when it fits neither without the one nor without the other. -/
theorem sheds_iff (render : ServerStatus → String) (status : ServerStatus)
    (hshrinks : Shrinks render status) (htells : Tells render status) :
    Sheds render status ↔ Fits (render status.cut) ∨ status.players = [] ∨ status.iconB64 = none ∨
      ¬Fits (render (status.cut.clear .icon)) ∧ ¬Fits (render (status.cut.clear .players)) := by
  constructor
  · intro h
    by_contra hcond
    simp only [not_or, not_and_or, not_not] at hcond
    obtain ⟨hcut, hplayers, hicon, hfits⟩ := hcond
    have hsome : status.cut.players ≠ [] := by
      simpa [ServerStatus.cut, maxPlayersInList] using hplayers
    by_cases hwithout : Fits (render (status.cut.clear .icon))
    · have hans : answer render status = .ok (render (status.cut.clear .icon)) := by
        rw [answer_eq, firstFit_cons hcut, firstFit_of_fits hwithout]
      obtain ⟨-, k, heq, -⟩ := h.ok _ hans
      have hview := htells _ (icon_mem_views status) _ (shed_mem_views status k) heq
      cases k with
      | zero => exact hicon (congrArg ServerStatus.iconB64 hview).symm
      | succ k =>
        exact hsome ((congrArg ServerStatus.players hview).trans (shed_succ_players status k))
    · have hfirst := hfits.resolve_left hwithout
      have hsecond : Fits (render (status.shed 2)) :=
        (hshrinks _ (shed_mem_views status 1) .icon (by decide)).trans hfirst
      have hans : answer render status = .ok (render (status.shed 2)) := by
        rw [answer_eq, firstFit_cons hcut, firstFit_cons hwithout]
        exact firstFit_of_fits hsecond _
      obtain ⟨-, k, heq, hbefore, -⟩ := h.ok _ hans
      have hview := htells _ (shed_mem_views status 2) _ (shed_mem_views status k) heq
      match k with
      | 0 => exact hsome (congrArg ServerStatus.players hview).symm
      | 1 => exact hicon (congrArg ServerStatus.iconB64 hview).symm
      | k + 2 => exact hbefore 1 (by omega) hfirst
  · intro h
    refine sheds_of_firstFit ?_
    rw [answer_eq, shedOrder]
    obtain hcut | hplayers | hicon | ⟨hicon, hplayers⟩ := h
    · rw [firstFit_of_fits hcut, firstFit_of_fits hcut]
    · have hnone : (status.cut.clear .icon).clear .players = status.cut.clear .icon :=
        congrArg (·.clear .icon) (cut_players hplayers)
      rw [firstFit_skip (cut_players hplayers)]
      by_cases hcut : Fits (render status.cut)
      · rw [firstFit_of_fits hcut, firstFit_of_fits hcut]
      · rw [firstFit_cons hcut, firstFit_cons hcut, firstFit_skip hnone]
    · have hnone : (status.cut.clear .players).clear .icon = status.cut.clear .players :=
        congrArg (·.clear .players) (cut_icon hicon)
      rw [firstFit_skip (cut_icon hicon)]
      by_cases hcut : Fits (render status.cut)
      · rw [firstFit_of_fits hcut, firstFit_of_fits hcut]
      · rw [firstFit_cons hcut, firstFit_cons hcut, firstFit_skip hnone]
    · by_cases hcut : Fits (render status.cut)
      · rw [firstFit_of_fits hcut, firstFit_of_fits hcut]
      · rw [firstFit_cons hcut, firstFit_cons hcut, firstFit_cons hicon, firstFit_cons hplayers]
        rfl

def iconOf (n : ℕ) : String := String.ofList (List.replicate n 'A')

/-- A status with all parts that may be shed, or with some of them, and an `extra` of any size. -/
def crowded (n : ℕ) (desc icon players extra : Bool) : ServerStatus :=
  { sample (if icon then some "aWNvbg==" else none) with
    projectDesc := if desc then some "Test" else none
    players := if players then [⟨"Alice", some "Police"⟩] else []
    extra := if extra then [("rules", iconOf n)] else [] }

theorem bytes_iconOf (n : ℕ) : bytes (jsonString (iconOf n)) = n + 2 := by
  have hescape (n : ℕ) : (List.replicate n 'A').flatMap escape = List.replicate n 'A' := by
    induction n with
    | zero => rfl
    | succ n ih =>
      rw [List.replicate_succ, List.flatMap_cons, ih]
      rfl
  have hsum : bytes (List.replicate n 'A') = n := by
    rw [bytes, List.map_replicate, List.sum_replicate_nat]
    exact Nat.mul_one n
  rw [jsonString, iconOf, String.toList_ofList, hescape, bytes_cons, bytes_append, hsum]
  exact Nat.add_comm 1 (n + 1)

theorem crowded_size (n : ℕ) (desc icon players extra : Bool) :
    (crowded n desc icon players extra).toJson.utf8ByteSize =
      247 + 2 * desc.toNat + 6 * icon.toNat + 33 * players.toNat + (n + 10) * extra.toNat := by
  have hbare : (shedOrder.foldl ServerStatus.clear
      (crowded n desc icon players extra)).toJson.utf8ByteSize = 247 := by
    change ((sample none).clear .players).toJson.utf8ByteSize = 247
    rw [ServerStatus.toJson, utf8ByteSize_ofList]
    decide +kernel
  have hdesc : bytes (jsonOption (if desc then some "Test" else none)) = 4 + 2 * desc.toNat := by
    cases desc <;> decide
  have hicon : bytes (jsonOption (if icon then some "aWNvbg==" else none)) =
      4 + 6 * icon.toNat := by
    cases icon <;> decide
  have hplayers : bytes (jsonList ((if players then [⟨"Alice", some "Police"⟩] else []).map
      QueryPlayer.toJson)) = 2 + 33 * players.toNat := by
    cases players <;> decide +kernel
  have hextra : bytes (jsonObject ((if extra then [("rules", iconOf n)] else []).map
      (fun x ↦ (x.1, jsonString x.2)))) = 2 + (n + 10) * extra.toNat := by
    cases extra with
    | false => rfl
    | true =>
      have hname : bytes (jsonString "rules") = 7 := by decide
      rw [if_pos rfl, List.map_singleton, bytes_jsonObject, List.map_singleton,
        List.sum_singleton, bytes_iconOf, hname, Bool.toNat_true]
      omega
  calc (crowded n desc icon players extra).toJson.utf8ByteSize
      = 247 + (4 + 2 * desc.toNat) + (4 + 6 * icon.toNat) + (2 + 33 * players.toNat) +
          (2 + (n + 10) * extra.toNat) - 12 := by
        rw [← hdesc, ← hicon, ← hplayers, ← hextra, ← hbare]
        exact Nat.eq_sub_of_add_eq (size_toJson _)
    _ = _ := by omega

/-- The views of a crowded status are crowded with some of the parts. -/
theorem crowded_views (n : ℕ) : ∀ s ∈ (crowded n true true true true).views,
    ∃ desc icon players extra, s = crowded n desc icon players extra := by
  refine views_induction ⟨true, true, true, true, rfl⟩ ?_
  rintro - part ⟨desc, icon, players, extra, rfl⟩
  cases part with
  | players => exact ⟨desc, icon, false, extra, rfl⟩
  | icon => exact ⟨desc, false, players, extra, rfl⟩
  | extra => exact ⟨desc, icon, players, false, rfl⟩
  | desc => exact ⟨false, icon, players, extra, rfl⟩

theorem crowded_shrinks (n : ℕ) : Shrinks ServerStatus.toJson (crowded n true true true true) := by
  intro s hs part _
  obtain ⟨desc, icon, players, extra, rfl⟩ := crowded_views n s hs
  rw [crowded_size]
  cases part with
  | players =>
    change (crowded n desc icon false extra).toJson.utf8ByteSize ≤ _
    rw [crowded_size, Bool.toNat_false]
    omega
  | icon =>
    change (crowded n desc false players extra).toJson.utf8ByteSize ≤ _
    rw [crowded_size, Bool.toNat_false]
    omega
  | extra =>
    change (crowded n desc icon players false).toJson.utf8ByteSize ≤ _
    rw [crowded_size, Bool.toNat_false]
    omega
  | desc =>
    change (crowded n false icon players extra).toJson.utf8ByteSize ≤ _
    rw [crowded_size, Bool.toNat_false]
    omega

/-- The sizes alone tell the views apart. -/
theorem crowded_tells {n : ℕ} (hn : maxResponseBytes < n) :
    Tells ServerStatus.toJson (crowded n true true true true) := by
  intro s hs s' hs' heq
  obtain ⟨desc, icon, players, extra, rfl⟩ := crowded_views n s hs
  obtain ⟨desc', icon', players', extra', rfl⟩ := crowded_views n s' hs'
  have hsize := congrArg String.utf8ByteSize heq
  rw [maxResponseBytes] at hn
  rw [crowded_size, crowded_size] at hsize
  have hdesc := desc.toNat_le
  have hdesc' := desc'.toNat_le
  have hicon := icon.toNat_le
  have hicon' := icon'.toNat_le
  have hplayers := players.toNat_le
  have hplayers' := players'.toNat_le
  have hextra : extra = extra' := by
    cases extra <;> cases extra' <;> simp only [Bool.toNat_true, Bool.toNat_false] at hsize <;>
      first | rfl | omega
  subst hextra
  have hinj : ∀ b b' : Bool, b.toNat = b'.toNat → b = b' := by decide
  rw [hinj desc desc' (by omega), hinj icon icon' (by omega), hinj players players' (by omega)]

theorem crowded_not_fits {n : ℕ} (hn : maxResponseBytes < n) (desc icon players : Bool) :
    ¬Fits (crowded n desc icon players true).toJson := by
  rw [Fits, crowded_size, Bool.toNat_true]
  omega

theorem crowded_sheds : Sheds ServerStatus.toJson (crowded 9000 true true true true) :=
  (sheds_iff ServerStatus.toJson (crowded 9000 true true true true) (crowded_shrinks 9000)
    (crowded_tells (by decide))).mpr (.inr (.inr (.inr
      ⟨crowded_not_fits (by decide) true false true, crowded_not_fits (by decide) true true false⟩)))

theorem sample_shorter :
    ((sample none).clear .players).toJson.utf8ByteSize < (sample none).toJson.utf8ByteSize := by
  rw [ServerStatus.toJson, ServerStatus.toJson, utf8ByteSize_ofList, utf8ByteSize_ofList]
  decide +kernel

theorem sample_fits : Fits (sample none).toJson := by
  rw [Fits, ServerStatus.toJson, utf8ByteSize_ofList]
  decide +kernel

theorem sample_shed (icon : Option String) (k : ℕ) :
    (sample icon).shed (k + 2) = (sample none).clear .players := by
  have hclear (parts : List Part) : parts.foldl ServerStatus.clear ((sample none).clear .players) =
      (sample none).clear .players := by
    induction parts with
    | nil => rfl
    | cons part parts ih =>
      rw [List.foldl_cons]
      cases part <;> exact ih
  exact hclear _

theorem sample_shed_icon (icon : Option String) {k : ℕ} (hk : k < 2) :
    ((sample icon).shed k).iconB64 = icon := by
  match k with
  | 0 => rfl
  | 1 => rfl

theorem sample_cut (icon : Option String) : (sample icon).cut.clear .icon = sample none := rfl

theorem large_not_fits {n : ℕ} (hn : maxResponseBytes < n) (h : s.iconB64 = some (iconOf n)) :
    ¬Fits s.toJson := by
  intro hfits
  have hlength := (length_icon_le h).trans hfits
  rw [iconOf, String.toList_ofList, List.length_replicate] at hlength
  omega

/-- A large icon is dropped where the players should go first. -/
theorem not_sheds_of_large {n : ℕ} (hn : maxResponseBytes < n) :
    ¬Sheds ServerStatus.toJson (sample (some (iconOf n))) := by
  intro h
  have hans : answer ServerStatus.toJson (sample (some (iconOf n))) =
      .ok (sample none).toJson := by
    rw [answer_eq, firstFit_cons (large_not_fits hn rfl), sample_cut]
    exact firstFit_of_fits sample_fits _
  obtain ⟨-, k, heq, -⟩ := h.ok _ hans
  rcases Nat.lt_or_ge k 2 with hk | hk
  · have hlarge := large_not_fits hn (sample_shed_icon (some (iconOf n)) hk)
    rw [← heq] at hlarge
    exact hlarge sample_fits
  · obtain ⟨k, rfl⟩ := Nat.exists_eq_add_of_le' hk
    rw [sample_shed] at heq
    exact sample_shorter.ne' (congrArg String.utf8ByteSize heq)

theorem icon_before_players : ¬Sheds ServerStatus.toJson (sample (some (iconOf 9000))) :=
  not_sheds_of_large (by decide)

end Aldivine.Query.Status

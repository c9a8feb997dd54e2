import Mathlib.Data.Set.Card
import Aldivine.Core.Basics
import Aldivine.Foundation.Execution
import Aldivine.Foundation.Table

namespace Aldivine.Players.Service

open Foundation.Execution Foundation.Table Core.PlayerId

abbrev CharacterId := BitVec 32

inductive PlayerStatus
  | online
  | offline
  | banned
deriving DecidableEq

structure Character where
  charId : CharacterId
  name : String
  job : String
deriving DecidableEq

structure Player where
  identity : AldivinePlayerId
  status : PlayerStatus
  characters : List Character
  activeCharacter : Option CharacterId
deriving DecidableEq

/-- The character that `create_character` adds; its id is that of the next slot. -/
def Player.newCharacter (player : Player) (name : String) : Character :=
  ⟨BitVec.ofNat 32 player.characters.length + 1, name, "unemployed"⟩

inductive PlayerError
  | noCharacter (id : CharacterId)
  | slotLimit
  | duplicateName
deriving DecidableEq

structure PlayerService where
  players : AList (fun _ : AldivinePlayerId ↦ Player)
  names : AList (fun _ : String ↦ AldivinePlayerId)

def maxCharacters : ℕ := 5

namespace PlayerService

def new : PlayerService := ⟨∅, ∅⟩

def put (s : PlayerService) (identity : AldivinePlayerId) (player : Player) : PlayerService :=
  { s with players := s.players.insert identity player }

/-- `entry().or_insert()` leaves a player who is there as he is. -/
def join (s : PlayerService) (identity : AldivinePlayerId) : PlayerService :=
  match s.players.lookup identity with
  | some _ => s
  | none => s.put identity ⟨identity, .online, [], none⟩

def leave (s : PlayerService) (identity : AldivinePlayerId) : PlayerService :=
  match s.players.lookup identity with
  | some player => s.put identity { player with status := .offline, activeCharacter := none }
  | none => s

def createCharacter (s : PlayerService) (identity : AldivinePlayerId) (name : String) :
    PlayerService × Except PlayerError CharacterId :=
  if (s.names.lookup name).isSome then (s, .error .duplicateName)
  else
    match s.players.lookup identity with
    | none => (s, .error (.noCharacter 0))
    | some player =>
      if player.characters.length ≥ maxCharacters then (s, .error .slotLimit)
      else
        let character := player.newCharacter name
        ({ s with names := s.names.insert name identity }.put identity
          { player with characters := player.characters ++ [character] }, .ok character.charId)

def selectCharacter (s : PlayerService) (identity : AldivinePlayerId) (charId : CharacterId) :
    PlayerService × Except PlayerError Unit :=
  match s.players.lookup identity with
  | none => (s, .error (.noCharacter charId))
  | some player =>
    if player.characters.any (fun c ↦ c.charId == charId) then
      (s.put identity { player with activeCharacter := some charId }, .ok ())
    else (s, .error (.noCharacter charId))

def onlineCount (s : PlayerService) : ℕ :=
  (s.players.entries.filter (fun e ↦ e.2.status == .online)).length

end PlayerService

inductive Call
  | join (identity : AldivinePlayerId)
  | leave (identity : AldivinePlayerId)
  | createCharacter (identity : AldivinePlayerId) (name : String)
  | selectCharacter (identity : AldivinePlayerId) (charId : CharacterId)
deriving DecidableEq

inductive Reply
  | done
  | created (charId : CharacterId)
  | failed (e : PlayerError)
deriving DecidableEq

def step (s : PlayerService) : Call → PlayerService × Reply
  | .join identity => (s.join identity, .done)
  | .leave identity => (s.leave identity, .done)
  | .createCharacter identity name =>
    match s.createCharacter identity name with
    | (s, .ok charId) => (s, .created charId)
    | (s, .error e) => (s, .failed e)
  | .selectCharacter identity charId =>
    match s.selectCharacter identity charId with
    | (s, .ok ()) => (s, .done)
    | (s, .error e) => (s, .failed e)

inductive Stepped (s : PlayerService) : Call → PlayerService × Reply → Prop
  | known {identity player} (hplayer : s.players.lookup identity = some player) :
      Stepped s (.join identity) (s, .done)
  | joined {identity} (hnone : s.players.lookup identity = none) :
      Stepped s (.join identity) (s.put identity ⟨identity, .online, [], none⟩, .done)
  | unknown {identity} (hnone : s.players.lookup identity = none) :
      Stepped s (.leave identity) (s, .done)
  | left {identity player} (hplayer : s.players.lookup identity = some player) :
      Stepped s (.leave identity)
        (s.put identity { player with status := .offline, activeCharacter := none }, .done)
  | refused {call e} (hquiet : ∀ identity, call ≠ .join identity ∧ call ≠ .leave identity)
      (hselect : ∀ identity charId player, call = .selectCharacter identity charId →
        s.players.lookup identity = some player → ∀ c ∈ player.characters, c.charId ≠ charId) :
      Stepped s call (s, .failed e)
  | created {identity name player} (hfree : s.names.lookup name = none)
      (hplayer : s.players.lookup identity = some player)
      (hroom : player.characters.length < maxCharacters) :
      Stepped s (.createCharacter identity name)
        ({ s with names := s.names.insert name identity }.put identity
          { player with characters := player.characters ++ [player.newCharacter name] },
          .created (player.newCharacter name).charId)
  | selected {identity charId player} (hplayer : s.players.lookup identity = some player)
      (hcharacter : ∃ c ∈ player.characters, c.charId = charId) :
      Stepped s (.selectCharacter identity charId)
        (s.put identity { player with activeCharacter := some charId }, .done)

theorem stepped (s : PlayerService) (call : Call) : Stepped s call (step s call) := by
  cases call with
  | join identity =>
    simp only [step, PlayerService.join]
    split
    · exact .known ‹_›
    · exact .joined ‹_›
  | leave identity =>
    simp only [step, PlayerService.leave]
    split
    · exact .left ‹_›
    · exact .unknown ‹_›
  | createCharacter identity name =>
    have hrefused (e : PlayerError) : Stepped s (.createCharacter identity name) (s, .failed e) :=
      .refused (fun _ ↦ ⟨nofun, nofun⟩) nofun
    simp only [step, PlayerService.createCharacter]
    by_cases hname : (s.names.lookup name).isSome
    · rw [if_pos hname]
      exact hrefused _
    rw [if_neg hname]
    cases hplayer : s.players.lookup identity with
    | none => exact hrefused _
    | some player =>
      by_cases hfull : player.characters.length ≥ maxCharacters
      · simp only [if_pos hfull]
        exact hrefused _
      · simp only [if_neg hfull]
        exact .created (Option.not_isSome_iff_eq_none.mp hname) hplayer (not_le.mp hfull)
  | selectCharacter identity charId =>
    simp only [step, PlayerService.selectCharacter]
    cases hplayer : s.players.lookup identity with
    | none =>
      refine .refused (fun _ ↦ ⟨nofun, nofun⟩) ?_
      rintro _ _ player ⟨⟩ hsome
      cases hplayer.symm.trans hsome
    | some player =>
      by_cases hany : player.characters.any (fun c ↦ c.charId == charId)
      · simp only [if_pos hany]
        refine .selected hplayer ?_
        simpa using hany
      · simp only [if_neg hany]
        refine .refused (fun _ ↦ ⟨nofun, nofun⟩) ?_
        rintro _ _ player' ⟨⟩ hsome
        cases hplayer.symm.trans hsome
        simpa using hany

end Aldivine.Players.Service

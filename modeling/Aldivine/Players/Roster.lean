import Aldivine.Players.Service

namespace Aldivine.Players.Roster

open Foundation.Execution Foundation.Table Core.PlayerId Service

variable {s : PlayerService} {history : List (Call × Reply)} {identity : AldivinePlayerId}
  {player : Player}

def presence (identity : AldivinePlayerId) : Call × Reply → Option Bool
  | (.join joined, _) => if joined = identity then some true else none
  | (.leave left, _) => if left = identity then some false else none
  | _ => none

def Present (history : List (Call × Reply)) (identity : AldivinePlayerId) : Prop :=
  latest (presence identity) history = some true

def Online (s : PlayerService) (identity : AldivinePlayerId) : Prop :=
  ∃ player ∈ s.players.lookup identity, player.status = .online

def Owns (s : PlayerService) (identity : AldivinePlayerId) (name : String) : Prop :=
  ∃ player ∈ s.players.lookup identity, ∃ c ∈ player.characters, c.name = name

structure InOrder (s : PlayerService) (history : List (Call × Reply)) : Prop where
  online : s.onlineCount = {identity | Present history identity}.ncard
  names : ∀ name identity, s.names.lookup name = some identity ↔ Owns s identity name
  distinct : ∀ identity, ∀ player ∈ s.players.lookup identity,
    (player.characters.map Character.name).Nodup
  ids : ∀ identity, ∀ player ∈ s.players.lookup identity,
    (player.characters.map Character.charId).Nodup
  active : ∀ identity, ∀ player ∈ s.players.lookup identity,
    ∀ charId ∈ player.activeCharacter,
      (∃ c ∈ player.characters, c.charId = charId) ∧ player.status = .online
  refused : ∀ call e, (step s call).2 = .failed e → (step s call).1 = s

/-- Nobody comes back who has left, and nobody chooses a character while away. -/
def Fits (s : PlayerService) : Call → Prop
  | .join identity => ∀ player ∈ s.players.lookup identity, player.status = .online
  | .selectCharacter identity charId => ∀ player ∈ s.players.lookup identity,
      (∃ c ∈ player.characters, c.charId = charId) → player.status = .online
  | _ => True

section Counting

theorem length_filter_entries {κ ν : Type} [DecidableEq κ] (t : AList (fun _ : κ ↦ ν))
    (p : ν → Bool) :
    (t.entries.filter (fun e ↦ p e.2)).length = {k | ∃ v ∈ t.lookup k, p v = true}.ncard := by
  have hkeys : {k | ∃ v ∈ t.lookup k, p v = true} =
      (((t.entries.filter (fun e ↦ p e.2)).map Sigma.fst).toFinset : Set κ) := by
    ext k
    simp only [Set.mem_ofPred_eq, List.coe_toFinset, List.mem_map, List.mem_filter]
    constructor
    · rintro ⟨v, hv, hp⟩
      exact ⟨⟨k, v⟩, ⟨AList.mem_lookup_iff.mp hv, hp⟩, rfl⟩
    · rintro ⟨⟨k, v⟩, ⟨hentry, hp⟩, rfl⟩
      exact ⟨v, AList.mem_lookup_iff.mpr hentry, hp⟩
  have hnodup : ((t.entries.filter (fun e ↦ p e.2)).map Sigma.fst).Nodup :=
    t.nodupKeys.sublist List.filter_sublist
  rw [hkeys, Set.ncard_coe_finset, List.toFinset_card_of_nodup hnodup, List.length_map]

theorem onlineCount_eq (s : PlayerService) : s.onlineCount = {identity | Online s identity}.ncard := by
  rw [PlayerService.onlineCount, length_filter_entries s.players (fun p ↦ p.status == .online)]
  simp only [beq_iff_eq]
  rfl

theorem finite_online (s : PlayerService) : {identity | Online s identity}.Finite := by
  refine (s.players.keys.finite_toSet).subset ?_
  rintro identity ⟨player, hplayer, -⟩
  exact AList.mem_keys.mpr (AList.lookup_isSome.mp (Option.isSome_of_mem hplayer))

end Counting

section Steps

variable {call : Call} {reply : Reply}

theorem present_concat {x : Call × Reply} : Present (history ++ [x]) identity ↔
    presence identity x = some true ∨ presence identity x = none ∧ Present history identity := by
  rw [Present, latest_concat, Option.or_eq_some_iff]
  rfl

theorem lookup_put {other : AldivinePlayerId} :
    (s.put identity player).players.lookup other =
      if other = identity then some player else s.players.lookup other :=
  lookup_insert_ite other player

def Numbered (player : Player) : Prop :=
  player.characters.length ≤ maxCharacters ∧ player.characters.map Character.charId =
    (List.range player.characters.length).map (fun i ↦ BitVec.ofNat 32 i + 1)

/-- What makes a player one of the table: a property of each entry by itself. -/
structure Sound (player : Player) : Prop where
  numbered : Numbered player
  distinct : (player.characters.map Character.name).Nodup
  active : ∀ charId ∈ player.activeCharacter,
    (∃ c ∈ player.characters, c.charId = charId) ∧ player.status = .online

structure Kept (s : PlayerService) (history : List (Call × Reply)) : Prop where
  present : ∀ identity, Online s identity ↔ Present history identity
  names : ∀ name identity, s.names.lookup name = some identity ↔ Owns s identity name
  sound : ∀ identity, ∀ player ∈ s.players.lookup identity, Sound player

theorem Numbered.nodup (h : Numbered player) : (player.characters.map Character.charId).Nodup := by
  obtain ⟨hlen, hids⟩ := h
  rw [hids]
  refine List.Nodup.map_on ?_ List.nodup_range
  intro i hi j hj heq
  rw [List.mem_range] at hi hj
  rw [maxCharacters] at hlen
  have hnat := congrArg BitVec.toNat heq
  rw [BitVec.toNat_add, BitVec.toNat_add, BitVec.toNat_ofNat, BitVec.toNat_ofNat] at hnat
  change (i % 2 ^ 32 + 1) % 2 ^ 32 = (j % 2 ^ 32 + 1) % 2 ^ 32 at hnat
  omega

theorem Numbered.push (h : Numbered player) (name : String)
    (hroom : player.characters.length < maxCharacters) :
    Numbered { player with characters := player.characters ++ [player.newCharacter name] } := by
  obtain ⟨-, hids⟩ := h
  constructor
  · dsimp only
    rw [List.length_append, List.length_singleton]
    exact hroom
  · dsimp only
    rw [List.map_append, hids, List.length_append, List.length_singleton, List.range_succ,
      List.map_append]
    rfl

theorem sound_put (h : ∀ identity, ∀ player ∈ s.players.lookup identity, Sound player)
    (hplayer : Sound player) :
    ∀ other, ∀ player' ∈ (s.put identity player).players.lookup other, Sound player' := by
  intro other player' hlookup
  rw [Option.mem_def, lookup_put] at hlookup
  split at hlookup
  · cases hlookup
    exact hplayer
  · exact h other player' hlookup

theorem online_put {other : AldivinePlayerId} : Online (s.put identity player) other ↔
    if other = identity then player.status = .online else Online s other := by
  unfold Online
  rw [lookup_put]
  split
  · simp
  · rfl

theorem owns_put {other : AldivinePlayerId} {name : String} :
    Owns (s.put identity player) other name ↔
      if other = identity then ∃ c ∈ player.characters, c.name = name else Owns s other name := by
  unfold Owns
  rw [lookup_put]
  split
  · simp
  · rfl

theorem owns_put_same {old : Player} {other : AldivinePlayerId} {name : String}
    (hold : s.players.lookup identity = some old) (hsame : player.characters = old.characters) :
    Owns (s.put identity player) other name ↔ Owns s other name := by
  rw [owns_put]
  split
  · rename_i heq
    rw [heq, Owns, hold, hsame]
    simp
  · rfl

theorem present_quiet (hquiet : ∀ identity, call ≠ .join identity ∧ call ≠ .leave identity) :
    Present (history ++ [(call, reply)]) identity ↔ Present history identity := by
  have hnone : presence identity (call, reply) = none := by
    cases call with
    | join joined => exact absurd rfl (hquiet joined).1
    | leave left => exact absurd rfl (hquiet left).2
    | createCharacter => rfl
    | selectCharacter => rfl
  rw [present_concat, hnone]
  simp

theorem present_join {joined : AldivinePlayerId} :
    Present (history ++ [(.join joined, reply)]) identity ↔
      identity = joined ∨ Present history identity := by
  rw [present_concat, presence]
  by_cases heq : joined = identity
  · simp [heq]
  · simp [heq, Ne.symm heq]

theorem present_leave {left : AldivinePlayerId} :
    Present (history ++ [(.leave left, reply)]) identity ↔
      identity ≠ left ∧ Present history identity := by
  rw [present_concat, presence]
  by_cases heq : left = identity
  · simp [heq]
  · simp [heq, Ne.symm heq]

theorem Kept.same (hs : Kept s history)
    (h : ∀ identity, Present (history ++ [(call, reply)]) identity ↔ Present history identity) :
    Kept s (history ++ [(call, reply)]) where
  present identity := (hs.present identity).trans (h identity).symm
  names := hs.names
  sound := hs.sound

theorem Kept.known (hs : Kept s history) (hplayer : s.players.lookup identity = some player)
    (honline : player.status = .online) : Kept s (history ++ [(.join identity, reply)]) := by
  refine hs.same (fun other ↦ ?_)
  rw [present_join, or_iff_right_iff_imp, ← hs.present]
  intro heq
  rw [heq]
  exact ⟨player, hplayer, honline⟩

theorem Kept.joined (hs : Kept s history) (hnone : s.players.lookup identity = none) :
    Kept (s.put identity ⟨identity, .online, [], none⟩)
      (history ++ [(.join identity, reply)]) where
  present other := by
    rw [present_join, online_put, ← hs.present]
    split
    · simp [*]
    · simp [*]
  names name other := by
    rw [owns_put]
    split
    · rename_i heq
      rw [PlayerService.put, hs.names, Owns, heq, hnone]
      simp
    · exact hs.names name other
  sound := sound_put hs.sound ⟨⟨Nat.zero_le _, rfl⟩, .nil, nofun⟩

theorem Kept.unknown (hs : Kept s history) (hnone : s.players.lookup identity = none) :
    Kept s (history ++ [(.leave identity, reply)]) := by
  refine hs.same (fun other ↦ ?_)
  rw [present_leave, and_iff_right_iff_imp, ← hs.present]
  intro honline heq
  obtain ⟨player, hplayer, -⟩ := honline
  rw [heq, hnone] at hplayer
  cases hplayer

theorem Kept.left (hs : Kept s history) (hplayer : s.players.lookup identity = some player) :
    Kept (s.put identity { player with status := .offline, activeCharacter := none })
      (history ++ [(.leave identity, reply)]) where
  present other := by
    rw [present_leave, online_put, ← hs.present]
    split
    · simp [*]
    · simp [*]
  names name other := by
    refine (hs.names name other).trans (owns_put_same hplayer ?_).symm
    rfl
  sound := by
    obtain ⟨hnumbered, hdistinct, -⟩ := hs.sound identity player hplayer
    exact sound_put hs.sound ⟨hnumbered, hdistinct, nofun⟩

theorem online_put_same {old : Player} {other : AldivinePlayerId}
    (hold : s.players.lookup identity = some old) (hsame : player.status = old.status) :
    Online (s.put identity player) other ↔ Online s other := by
  rw [online_put]
  split
  · rename_i heq
    rw [heq, Online, hold, hsame]
    simp
  · rfl

theorem owns_created {name other : String} {owner : AldivinePlayerId} (hs : Kept s history)
    (hfree : s.names.lookup name = none) (hplayer : s.players.lookup identity = some player) :
    (s.names.insert name identity).lookup other = some owner ↔
      Owns (s.put identity
        { player with characters := player.characters ++ [player.newCharacter name] })
        owner other := by
  rw [owns_put, lookup_insert_ite]
  by_cases hname : other = name
  · subst other
    rw [if_pos rfl]
    split
    · rename_i heq
      rw [heq]
      exact iff_of_true rfl ⟨_, List.mem_append_right _ List.mem_cons_self, rfl⟩
    · rename_i hne
      refine iff_of_false (fun h ↦ hne (Option.some.inj h).symm) ?_
      rw [← hs.names, hfree]
      exact nofun
  · rw [if_neg hname, hs.names]
    split
    · rename_i heq
      rw [heq, Owns, hplayer]
      have hnew : (player.newCharacter name).name ≠ other := Ne.symm hname
      simp [or_and_right, exists_or, hnew]
    · rfl

theorem Sound.push {name : String} (h : Sound player)
    (hroom : player.characters.length < maxCharacters)
    (hfree : ∀ c ∈ player.characters, c.name ≠ name) :
    Sound { player with characters := player.characters ++ [player.newCharacter name] } where
  numbered := h.numbered.push name hroom
  distinct := by
    dsimp only
    rw [List.map_append, List.map_singleton, ← List.concat_eq_append, List.nodup_concat]
    refine ⟨fun hmem ↦ ?_, h.distinct⟩
    obtain ⟨c, hc, hname⟩ := List.mem_map.mp hmem
    exact hfree c hc hname
  active charId hcharId := by
    obtain ⟨⟨c, hc, hid⟩, hstatus⟩ := h.active charId hcharId
    exact ⟨⟨c, List.mem_append_left _ hc, hid⟩, hstatus⟩

theorem Kept.created {name : String} (hs : Kept s history) (hfree : s.names.lookup name = none)
    (hplayer : s.players.lookup identity = some player)
    (hroom : player.characters.length < maxCharacters) :
    Kept ({ s with names := s.names.insert name identity }.put identity
        { player with characters := player.characters ++ [player.newCharacter name] })
      (history ++ [(.createCharacter identity name, reply)]) where
  present other := by
    have hquiet (joined) : Call.createCharacter identity name ≠ .join joined ∧
        Call.createCharacter identity name ≠ .leave joined := ⟨nofun, nofun⟩
    rw [present_quiet hquiet, ← hs.present]
    exact online_put_same hplayer rfl
  names _ _ := owns_created hs hfree hplayer
  sound := by
    refine sound_put hs.sound ((hs.sound identity player hplayer).push hroom ?_)
    intro c hc hname
    have howned := (hs.names name identity).mpr ⟨player, hplayer, c, hc, hname⟩
    rw [hfree] at howned
    cases howned

theorem Kept.selected {charId : BitVec 32} (hs : Kept s history)
    (hplayer : s.players.lookup identity = some player)
    (hcharacter : ∃ c ∈ player.characters, c.charId = charId) (honline : player.status = .online) :
    Kept (s.put identity { player with activeCharacter := some charId })
      (history ++ [(.selectCharacter identity charId, reply)]) where
  present other := by
    have hquiet (joined) : Call.selectCharacter identity charId ≠ .join joined ∧
        Call.selectCharacter identity charId ≠ .leave joined := ⟨nofun, nofun⟩
    rw [present_quiet hquiet, ← hs.present]
    exact online_put_same hplayer rfl
  names name other := by
    refine (hs.names name other).trans (owns_put_same hplayer ?_).symm
    rfl
  sound := by
    obtain ⟨hnumbered, hdistinct, -⟩ := hs.sound identity player hplayer
    refine sound_put hs.sound ⟨hnumbered, hdistinct, ?_⟩
    intro active hactive
    cases hactive
    exact ⟨hcharacter, honline⟩

theorem kept_stepped {next : PlayerService × Reply} (hs : Kept s history) (hfits : Fits s call)
    (h : Stepped s call next) : Kept next.1 (history ++ [(call, next.2)]) := by
  cases h with
  | known hplayer => exact hs.known hplayer (hfits _ hplayer)
  | joined hnone => exact hs.joined hnone
  | unknown hnone => exact hs.unknown hnone
  | left hplayer => exact hs.left hplayer
  | refused hquiet => exact hs.same (fun _ ↦ present_quiet hquiet)
  | created hfree hplayer hroom => exact hs.created hfree hplayer hroom
  | selected hplayer hcharacter =>
    exact hs.selected hplayer hcharacter (hfits _ hplayer hcharacter)

theorem Kept.inOrder (h : Kept s history) : InOrder s history where
  online := by
    rw [onlineCount_eq]
    simp only [h.present]
  names := h.names
  distinct identity player hplayer := (h.sound identity player hplayer).distinct
  ids identity player hplayer := (h.sound identity player hplayer).numbered.nodup
  active identity player hplayer := (h.sound identity player hplayer).active
  refused call e he := by
    have hstep := stepped s call
    generalize step s call = next at hstep he ⊢
    cases hstep with
    | refused => rfl
    | known | joined | unknown | left | created | selected => cases he

/-- A step out of line shows at once: one more is there than is counted, or one is away with a
character that is active. -/
theorem fits_of_inOrder (hs : Kept s history)
    (hnext : InOrder (step s call).1 (history ++ [(call, (step s call).2)])) : Fits s call := by
  have hstep := stepped s call
  generalize step s call = next at hstep hnext
  cases hstep with
  | @known joined player hplayer =>
    rintro _ hsame
    cases hplayer.symm.trans hsame
    by_contra haway
    have hcount : s.onlineCount = _ := hnext.online
    have habsent : joined ∉ {identity | Online s identity} := by
      rintro ⟨_, hsame, honline⟩
      cases hplayer.symm.trans hsame
      exact haway honline
    have hset : {identity | Present (history ++ [(.join joined, .done)]) identity} =
        insert joined {identity | Online s identity} := by
      ext identity
      exact present_join.trans (or_congr_right (hs.present identity).symm)
    rw [hset, Set.ncard_insert_of_notMem habsent (finite_online s), onlineCount_eq] at hcount
    omega
  | @joined joined hnone =>
    rintro player hplayer
    cases hnone.symm.trans hplayer
  | @selected owner charId player hplayer hcharacter =>
    rintro _ hsame -
    cases hplayer.symm.trans hsame
    have hlookup : (s.put owner { player with activeCharacter := some charId }).players.lookup
        owner = some { player with activeCharacter := some charId } := by
      rw [lookup_put, if_pos rfl]
    exact (hnext.active owner _ hlookup charId rfl).2
  | @refused call e hquiet hselect =>
    cases call with
    | join joined => exact absurd rfl (hquiet joined).1
    | selectCharacter owner charId =>
      rintro player hplayer ⟨c, hc, hid⟩
      exact absurd hid (hselect owner charId player rfl hplayer c hc)
    | leave | createCharacter => trivial
  | unknown | left | created => trivial

end Steps

theorem kept_new : Kept .new [] where
  present identity := iff_of_false (by rintro ⟨_, ⟨⟩, -⟩) nofun
  names name identity := iff_of_false nofun (by rintro ⟨_, ⟨⟩, -⟩)
  sound := nofun

/-- The service is in order after every call of a run exactly when every call of it fits. -/
theorem roster_iff (calls : List Call) :
    (∀ before, before <+: calls → InOrder (run step .new before) (answers step .new before)) ↔
      ∀ x ∈ trace step .new calls, Fits x.1 x.2 :=
  answers_run_iff (B := Kept) (fun s _ call hs hfits ↦ kept_stepped hs hfits (stepped s call))
    (fun s _ call hs _ ↦ ⟨fits_of_inOrder hs,
      fun hfits ↦ (kept_stepped hs hfits (stepped s call)).inOrder⟩)
    kept_new kept_new.inOrder calls

def rejoinRun : List Call := [.join ⟨1⟩, .leave ⟨1⟩, .join ⟨1⟩]

theorem rejoinRun_unordered :
    ¬InOrder (run step .new rejoinRun) (answers step .new rejoinRun) := by
  intro h
  have hcount := h.online
  have hanswers : answers step .new rejoinRun =
      [] ++ [(.join ⟨1⟩, .done)] ++ [(.leave ⟨1⟩, .done)] ++ [(.join ⟨1⟩, .done)] := by
    decide +kernel
  have hset : {identity | Present (answers step .new rejoinRun) identity} = {⟨1⟩} := by
    ext identity
    have hnone : ¬Present [] identity := nofun
    rw [hanswers, Set.mem_ofPred_eq, present_join, present_leave, present_join]
    simp [hnone]
  rw [hset, Set.ncard_singleton] at hcount
  exact absurd hcount (by decide)

end Aldivine.Players.Roster

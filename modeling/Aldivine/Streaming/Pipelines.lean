import Aldivine.Foundation.Execution
import Aldivine.Streaming.Mounts

namespace Aldivine.Streaming.Pipelines

open Foundation.Execution Mounts Registries

inductive Op
  | queue (assetId fileName : String) (formats : FormatRegistry) (expectedHash : Option String)
      (dependencies : List String)
  | beginVerify (assetId : String)
  | finishVerify (assetId : String) (hashOk : Bool) (detail : String)
  | checkDependencies (assetId : String) (resolve : String → Bool)
  | beginMount (assetId mountPoint : String)
  | completeMount (assetId : String)
  | register (assetId : String)
  | cancel (assetId : String)
  | fail (assetId reason : String) (retryable : Bool)

namespace Op

def assetId : Op → String
  | queue id _ _ _ _ | beginVerify id | finishVerify id _ _ | checkDependencies id _
  | beginMount id _ | completeMount id | register id | cancel id | fail id _ _ => id

def perform (m : Mounter) : Op → Except MountError Mounter
  | queue id fileName formats expectedHash dependencies =>
    m.queue id fileName formats expectedHash dependencies
  | beginVerify id => m.beginVerify id
  | finishVerify id hashOk detail => m.finishVerify id hashOk detail
  | checkDependencies id resolve => m.checkDependencies id resolve
  | beginMount id mountPoint => m.beginMount id mountPoint
  | completeMount id => m.completeMount id
  | register id => m.register id
  | cancel id => m.cancel id
  | fail id reason retryable => m.fail id reason retryable

end Op

/-- Every operation returns early when it is rejected, before it has written to a record. -/
def act (m : Mounter) (op : Op) : Mounter × Except MountError Unit :=
  match op.perform m with
  | .ok m' => (m', .ok ())
  | .error e => (m, .error e)

def accepted (id : String) (answered : List (Op × Except MountError Unit)) : List Op :=
  (answered.filter (fun x ↦ decide (x.1.assetId = id) && x.2.isOk)).map Prod.fst

/-- What an operation that is not rejected makes of the record it finds. -/
inductive Moves : Op → Option MountRecord → MountRecord → Prop
  | queue {id fileName : String} {formats : FormatRegistry} {expectedHash : Option String}
      {dependencies : List String} {streamClass : StreamClass}
      (h : (formats.recognize fileName).isSome) :
      Moves (.queue id fileName formats expectedHash dependencies) none
        ⟨id, fileName, streamClass, expectedHash, dependencies, .queued, none⟩
  | beginVerify {id : String} {rec : MountRecord} (h : rec.state = .queued) :
      Moves (.beginVerify id) (some rec) { rec with state := .verifying }
  | finishVerify {id detail : String} {hashOk : Bool} {rec : MountRecord}
      (h : rec.state = .verifying) :
      Moves (.finishVerify id hashOk detail) (some rec)
        { rec with
            state := if hashOk then .verified else .failedRetryable ("hash mismatch: " ++ detail) }
  | checkDependencies {id : String} {resolve : String → Bool} {rec : MountRecord}
      (h : rec.state = .verified) (hall : ∀ d ∈ rec.dependencies, resolve d = true) :
      Moves (.checkDependencies id resolve) (some rec) { rec with state := .dependenciesReady }
  | missDependencies {id : String} {resolve : String → Bool} {rec : MountRecord} {reason : String}
      (h : rec.state = .verified) :
      Moves (.checkDependencies id resolve) (some rec)
        { rec with state := .failedRetryable reason }
  | beginMount {id mountPoint : String} {rec : MountRecord} (h : rec.state = .dependenciesReady) :
      Moves (.beginMount id mountPoint) (some rec)
        { rec with mountPoint := some mountPoint, state := .mountPending }
  | completeMount {id : String} {rec : MountRecord} (h : rec.state = .mountPending) :
      Moves (.completeMount id) (some rec) { rec with state := .mounted }
  | register {id : String} {rec : MountRecord} (h : rec.state = .mounted) :
      Moves (.register id) (some rec) { rec with state := .registered }
  | cancel {id : String} {rec : MountRecord} (h : rec.state.terminal = false) :
      Moves (.cancel id) (some rec) { rec with state := .cancelled }
  | fail {id reason : String} {retryable : Bool} {rec : MountRecord}
      (h : rec.state.terminal = false) :
      Moves (.fail id reason retryable) (some rec)
        { rec with state := if retryable then .failedRetryable reason else .failedFatal reason }

/-- The way of an asset that has not failed: its state after the operations that it took. -/
inductive Passed (id : String) (dependencies : List String) : MountState → List Op → Prop
  | queue {fileName : String} {formats : FormatRegistry} {expectedHash : Option String}
      (h : (formats.recognize fileName).isSome) :
      Passed id dependencies .queued [.queue id fileName formats expectedHash dependencies]
  | beginVerify {ops : List Op} (h : Passed id dependencies .queued ops) :
      Passed id dependencies .verifying (ops ++ [.beginVerify id])
  | finishVerify {ops : List Op} {detail : String} (h : Passed id dependencies .verifying ops) :
      Passed id dependencies .verified (ops ++ [.finishVerify id true detail])
  | checkDependencies {ops : List Op} {resolve : String → Bool}
      (h : Passed id dependencies .verified ops) (hall : ∀ d ∈ dependencies, resolve d = true) :
      Passed id dependencies .dependenciesReady (ops ++ [.checkDependencies id resolve])
  | beginMount {ops : List Op} {mountPoint : String}
      (h : Passed id dependencies .dependenciesReady ops) :
      Passed id dependencies .mountPending (ops ++ [.beginMount id mountPoint])
  | completeMount {ops : List Op} (h : Passed id dependencies .mountPending ops) :
      Passed id dependencies .mounted (ops ++ [.completeMount id])
  | register {ops : List Op} (h : Passed id dependencies .mounted ops) :
      Passed id dependencies .registered (ops ++ [.register id])

variable {m m' : Mounter} {op : Op} {id : String} {rec rec' : MountRecord} {ops : List Op}

theorem perform_ok (h : op.perform m = .ok m') :
    ∃ rec', Moves op (m.records.lookup op.assetId) rec' ∧ m' = m.put op.assetId rec' := by
  cases op with
  | queue id fileName formats expectedHash dependencies =>
    change m.queue id fileName formats expectedHash dependencies = .ok m' at h
    obtain ⟨hnone, streamClass, rfl⟩ := queue_ok h
    have hformat := (queue_isOk_iff.mp ⟨_, h⟩).1
    refine ⟨_, ?_, rfl⟩
    rw [Op.assetId, hnone]
    exact .queue hformat
  | beginVerify id =>
    change m.beginVerify id = .ok m' at h
    unfold Mounter.beginVerify at h
    obtain ⟨rec, hrec, hstate, rfl⟩ := transition_ok h
    exact ⟨_, hrec ▸ .beginVerify hstate, rfl⟩
  | finishVerify id hashOk detail =>
    change m.finishVerify id hashOk detail = .ok m' at h
    unfold Mounter.finishVerify at h
    obtain ⟨rec, hrec, hstate, rfl⟩ := transition_ok h
    exact ⟨_, hrec ▸ .finishVerify hstate, rfl⟩
  | checkDependencies id resolve =>
    change m.checkDependencies id resolve = .ok m' at h
    unfold Mounter.checkDependencies at h
    obtain ⟨rec, hrec, hstate, rfl⟩ := transition_ok h
    refine ⟨_, ?_, rfl⟩
    rw [Op.assetId, hrec]
    dsimp only
    split
    · rename_i hnone
      refine .checkDependencies hstate (fun d hd ↦ ?_)
      by_contra hmissing
      have hmem : d ∈ rec.dependencies.filter (fun d ↦ !resolve d) :=
        List.mem_filter.mpr ⟨hd, by simpa using hmissing⟩
      rw [List.isEmpty_iff.mp hnone] at hmem
      cases hmem
    · exact .missDependencies hstate
  | beginMount id mountPoint =>
    change m.beginMount id mountPoint = .ok m' at h
    unfold Mounter.beginMount at h
    obtain ⟨rec, hrec, hstate, rfl⟩ := transition_ok h
    exact ⟨_, hrec ▸ .beginMount hstate, rfl⟩
  | completeMount id =>
    change m.completeMount id = .ok m' at h
    unfold Mounter.completeMount at h
    obtain ⟨rec, hrec, hstate, rfl⟩ := transition_ok h
    exact ⟨_, hrec ▸ .completeMount hstate, rfl⟩
  | register id =>
    change m.register id = .ok m' at h
    unfold Mounter.register at h
    obtain ⟨rec, hrec, hstate, rfl⟩ := transition_ok h
    exact ⟨_, hrec ▸ .register hstate, rfl⟩
  | cancel id =>
    change m.cancel id = .ok m' at h
    unfold Mounter.cancel at h
    obtain ⟨rec, hrec, hgoing, rfl⟩ := stop_ok h
    exact ⟨_, hrec ▸ .cancel hgoing, rfl⟩
  | fail id reason retryable =>
    change m.fail id reason retryable = .ok m' at h
    unfold Mounter.fail at h
    obtain ⟨rec, hrec, hgoing, rfl⟩ := stop_ok h
    exact ⟨_, hrec ▸ .fail hgoing, rfl⟩

theorem act_cases (m : Mounter) (op : Op) :
    (∃ e, act m op = (m, .error e)) ∨
    ∃ rec', Moves op (m.records.lookup op.assetId) rec' ∧
      act m op = (m.put op.assetId rec', .ok ()) := by
  unfold act
  cases hperform : op.perform m with
  | error e => exact .inl ⟨e, rfl⟩
  | ok m' =>
    obtain ⟨rec', hmoves, rfl⟩ := perform_ok hperform
    exact .inr ⟨rec', hmoves, rfl⟩

theorem Moves.not_terminal (h : Moves op (some rec) rec') : rec.state.terminal = false := by
  cases h with
  | beginVerify h | finishVerify h | checkDependencies h | missDependencies h | beginMount h
  | completeMount h | register h => rw [h]; rfl
  | cancel h | fail h => exact h

/-- The record of an asset has come to an end without being registered, or the operations that the
asset took led it where it is. -/
def Earned (id : String) (ops : List Op) : Option MountRecord → Prop
  | none => ops = []
  | some rec => (rec.state.terminal = true ∧ rec.state ≠ .registered) ∨
      Passed id rec.dependencies rec.state ops

theorem Passed.moves (h : Passed op.assetId rec.dependencies rec.state ops)
    (hmoves : Moves op (some rec) rec') : Earned op.assetId (ops ++ [op]) (some rec') := by
  cases hmoves with
  | beginVerify hs => rw [hs] at h; exact .inr h.beginVerify
  | @finishVerify id detail hashOk _ hs =>
    rw [hs] at h
    cases hashOk with
    | true => exact .inr h.finishVerify
    | false => exact .inl ⟨rfl, by simp⟩
  | checkDependencies hs hall => rw [hs] at h; exact .inr (h.checkDependencies hall)
  | missDependencies hs => exact .inl ⟨rfl, by simp⟩
  | beginMount hs => rw [hs] at h; exact .inr h.beginMount
  | completeMount hs => rw [hs] at h; exact .inr h.completeMount
  | register hs => rw [hs] at h; exact .inr h.register
  | cancel hs => exact .inl ⟨rfl, by simp⟩
  | @fail id reason retryable _ hs => cases retryable <;> exact .inl ⟨rfl, by simp⟩

theorem Earned.moves {found : Option MountRecord} (h : Earned op.assetId ops found)
    (hmoves : Moves op found rec') : Earned op.assetId (ops ++ [op]) (some rec') := by
  cases found with
  | none =>
    rw [show ops = [] from h, List.nil_append]
    cases hmoves with
    | queue hformat => exact .inr (.queue hformat)
  | some rec =>
    obtain ⟨hend, -⟩ | hpassed := h
    · exact absurd hend (by rw [hmoves.not_terminal]; exact Bool.false_ne_true)
    · exact hpassed.moves hmoves

theorem accepted_concat (id : String) (answered : List (Op × Except MountError Unit)) (op : Op)
    (answer : Except MountError Unit) : accepted id (answered ++ [(op, answer)]) =
      accepted id answered ++ if op.assetId = id ∧ answer.isOk then [op] else [] := by
  rw [accepted, List.filter_append, List.map_append, List.filter_singleton]
  by_cases hid : op.assetId = id
  · cases answer.isOk <;> simp [accepted, hid]
  · simp [accepted, hid]

theorem earned_run (ops : List Op) (id : String) :
    Earned id (accepted id (answers act .new ops)) ((run act .new ops).records.lookup id) := by
  induction ops using List.reverseRecOn with
  | nil => rfl
  | append_singleton ops op ih =>
    rw [run_concat, answers_concat, accepted_concat]
    obtain ⟨e, hact⟩ | ⟨rec', hmoves, hact⟩ := act_cases (run act .new ops) op
    · rw [hact, if_neg (fun h ↦ Bool.false_ne_true h.2), List.append_nil]
      exact ih
    · rw [hact, lookup_put]
      by_cases hid : op.assetId = id
      · subst hid
        rw [if_pos rfl, if_pos ⟨rfl, rfl⟩]
        exact ih.moves hmoves
      · rw [if_neg (Ne.symm hid), if_neg (fun h ↦ hid h.1), List.append_nil]
        exact ih

theorem lookup_terminal (hrec : m.records.lookup id = some rec) (hend : rec.state.terminal = true)
    (ops : List Op) : (run act m ops).records.lookup id = some rec := by
  induction ops using List.reverseRecOn with
  | nil => exact hrec
  | append_singleton ops op ih =>
    rw [run_concat]
    obtain ⟨e, hact⟩ | ⟨rec', hmoves, hact⟩ := act_cases (run act m ops) op
    · rw [hact]
      exact ih
    · rw [hact, lookup_put]
      by_cases hid : id = op.assetId
      · subst hid
        rw [ih] at hmoves
        exact absurd hend (by rw [hmoves.not_terminal]; exact Bool.false_ne_true)
      · rw [if_neg hid]
        exact ih

/-- The seven operations of an asset that is registered. -/
theorem Passed.registered {dependencies : List String}
    (h : Passed id dependencies .registered ops) :
    ∃ fileName formats expectedHash detail resolve mountPoint,
      ops = [.queue id fileName formats expectedHash dependencies, .beginVerify id,
        .finishVerify id true detail, .checkDependencies id resolve, .beginMount id mountPoint,
        .completeMount id, .register id] ∧
      (formats.recognize fileName).isSome ∧ ∀ d ∈ dependencies, resolve d = true := by
  -- one constructor for each state, from the last operation to the first
  cases h with
  | register h => cases h with
    | completeMount h => cases h with
      | beginMount h => cases h with
        | checkDependencies h hall => cases h with
          | finishVerify h => cases h with
            | beginVerify h => cases h with
              | queue hformat => exact ⟨_, _, _, _, _, _, rfl, hformat, hall⟩

/-- A registered asset went through the whole pipeline, an end is final, a rejected operation does
nothing, and the records of other assets stay. -/
theorem pipeline_run (ops : List Op) :
    (∀ id, (run act .new ops).stateOf id = some .registered →
      ∃ fileName formats expectedHash dependencies detail resolve mountPoint,
        accepted id (answers act .new ops) =
          [.queue id fileName formats expectedHash dependencies, .beginVerify id,
            .finishVerify id true detail, .checkDependencies id resolve, .beginMount id mountPoint,
            .completeMount id, .register id] ∧
        (formats.recognize fileName).isSome ∧ ∀ d ∈ dependencies, resolve d = true) ∧
    (∀ before after id state, ops = before ++ after →
      (run act .new before).stateOf id = some state → state.terminal = true →
      (run act .new ops).stateOf id = some state) ∧
    (∀ before op, before ++ [op] <+: ops →
      (∃ e, (act (run act .new before) op).2 = .error e) →
      run act .new (before ++ [op]) = run act .new before) ∧
    (∀ before op id, before ++ [op] <+: ops → op.assetId ≠ id →
      (run act .new (before ++ [op])).records.lookup id =
        (run act .new before).records.lookup id) := by
  refine ⟨fun id hstate ↦ ?_, fun before after id state hops hstate hend ↦ ?_,
    fun before op _ hrejected ↦ ?_, fun before op id _ hid ↦ ?_⟩
  · have hearned := earned_run ops id
    obtain ⟨rec, hrec, hregistered⟩ := Option.map_eq_some_iff.mp hstate
    rw [hrec] at hearned
    obtain ⟨-, hnot⟩ | hpassed := hearned
    · exact absurd hregistered hnot
    · rw [hregistered] at hpassed
      obtain ⟨fileName, formats, expectedHash, detail, resolve, mountPoint, hpassed⟩ :=
        hpassed.registered
      exact
        ⟨fileName, formats, expectedHash, rec.dependencies, detail, resolve, mountPoint, hpassed⟩
  · obtain ⟨rec, hrec, hrecstate⟩ := Option.map_eq_some_iff.mp hstate
    rw [hops, run_append, Mounter.stateOf, lookup_terminal hrec (hrecstate ▸ hend), Option.map_some,
      hrecstate]
  · rw [run_concat]
    obtain ⟨e, hact⟩ | ⟨rec', -, hact⟩ := act_cases (run act .new before) op
    · rw [hact]
    · obtain ⟨e, he⟩ := hrejected
      rw [hact] at he
      cases he
  · rw [run_concat]
    obtain ⟨e, hact⟩ | ⟨rec', -, hact⟩ := act_cases (run act .new before) op
    · rw [hact]
    · rw [hact, lookup_put, if_neg (Ne.symm hid)]

end Aldivine.Streaming.Pipelines

import DoomFishUtils.Completion.Balance
import DoomFishUtils.Library.Utf8

/-!
# Completions without a value

The callback that foreign code is given for an operation that succeeds or fails with a message.  What
a wait returns is what the first callback has said.
-/

namespace DoomFishUtils.Completion

set_option autoImplicit false

open DoomFishUtils.Library

/-- `CStr::to_str` of the bytes before the terminator. -/
def toStr (bytes : List UInt8) : Option (List Char) :=
  let text := fromUtf8Lossy bytes
  if utf8 text = bytes then some text else none

/-- The message that a pointer leads to, if it is not null. -/
def errorFromCstr : Option (List UInt8) → String
  | none => "Unknown error"
  | some bytes =>
    match toStr bytes with
    | some text => String.ofList text
    | none => "Unknown error"

/-- The result that `UnitCompletion::callback` completes with. -/
def unitResult (success : Bool) (msg : Option (List UInt8)) : Except String Unit :=
  if success then .ok () else .error (errorFromCstr msg)

inductive UnitAction where
  | callback (context : Context) (success : Bool) (msg : Option (List UInt8))
  /-- Anything but a call of `complete_with_result`. -/
  | other (action : Sync.Action Unit)

def UnitAction.step : UnitAction → Option (Sync.Action Unit)
  | .callback context success msg => some (.complete context (unitResult success msg))
  | .other (.complete _ _) => none
  | .other action => some action

def unitNext (world : Sync.World Unit) (action : UnitAction) : Option (Sync.World Unit) :=
  action.step.bind world.next

/-- The callbacks that reach the completion. -/
def callbacks (_ : Sync.World Unit) : UnitAction → List (Bool × Option (List UInt8))
  | .callback .raw success msg => [(success, msg)]
  | _ => []

/-- The runs of a new `UnitCompletion`, with the callbacks, latest first. -/
def unitSystem (created : ℕ) :
    System (Sync.World Unit × List (Bool × Option (List UInt8))) UnitAction :=
  (System.ofNext (Sync.World.start created) unitNext).recorded callbacks

/-! ### Messages -/

lemma toStr_utf8 (text : List Char) : toStr (utf8 text) = some text := by
  have hdecode : fromUtf8Lossy (utf8 text) = text := Utf8.decode_utf8 none text
  unfold toStr
  rw [hdecode, if_pos rfl]

lemma toStr_eq_none {bytes : List UInt8} (h : ∀ text, bytes ≠ utf8 text) : toStr bytes = none :=
  if_neg fun heq => h _ heq.symm

lemma errorFromCstr_utf8 (text : List Char) :
    errorFromCstr (some (utf8 text)) = String.ofList text := by
  simp only [errorFromCstr, toStr_utf8]

lemma errorFromCstr_unknown {msg : Option (List UInt8)} (h : ∀ text, msg ≠ some (utf8 text)) :
    errorFromCstr msg = "Unknown error" := by
  cases msg with
  | none => rfl
  | some bytes =>
    have hnone : toStr bytes = none := toStr_eq_none fun text heq => h text (congrArg some heq)
    simp only [errorFromCstr, hnone]

/-! ### The calls of a history -/

section Calls

variable {R A : Type}

def Event.call : Event R → Option R
  | .called result _ => some result
  | _ => none

def calls (log : List (Event R)) : List R :=
  log.filterMap Event.call

lemma calls_swap (shared : Shared R A) (result : R) :
    calls (shared.swap result).log = result :: calls shared.log := by
  unfold Shared.swap
  split_ifs <;> rfl

lemma calls_release (shared : Shared R A) (holder : Holder) :
    calls (shared.release holder).log = calls shared.log := by
  unfold Shared.release
  split_ifs <;> rfl

lemma calls_eq_nil {log : List (Event R)} (h : ∀ event ∈ log, event.isCall = false) :
    calls log = [] := by
  refine List.filterMap_eq_nil_iff.mpr fun event hevent => ?_
  have hcall := h event hevent
  cases event <;> first | rfl | cases hcall

end Calls

namespace Sync

variable {T : Type} {world world' : World T}

lemma calls_check (world : World T) (timer : Option Timer) :
    calls (world.check timer).shared.log = calls world.shared.log := by
  unfold World.check
  rcases hfound : world.shared.result with _ | result
  · rcases timer with _ | timer
    · simp [Shared.take, hfound]
    · simp only [Shared.take, hfound]
      split <;> rfl
  · simp [Shared.take, hfound]

/-- Only `complete_with_result` on the context is a call. -/
lemma calls_next {action : Action T} (hnext : world.next action = some world')
    (haction : ∀ result, action ≠ .complete .raw result) :
    calls world'.shared.log = calls world.shared.log := by
  rcases action with ⟨_ | _, result⟩ | _ | _ | timeout | _ | _ | _ | _ | _ <;>
    unfold World.next at hnext <;> dsimp only at hnext
  case complete.null => exact Option.some.inj hnext ▸ rfl
  case complete.raw => exact absurd rfl (haction result)
  case winner =>
    unfold World.stepWinner at hnext
    split at hnext
    · exact Option.some.inj hnext ▸ rfl
    · refine Option.some.inj hnext ▸ ?_
      dsimp only
      rw [notifyOne_shared]
    · exact Option.some.inj hnext ▸ calls_release ..
    · cases hnext
  case check =>
    split at hnext
    · exact Option.some.inj hnext ▸ calls_check ..
    · cases hnext
  case finish =>
    split at hnext
    · exact Option.some.inj hnext ▸ calls_release ..
    · cases hnext
  case drop =>
    split at hnext
    · exact Option.some.inj hnext ▸ calls_release ..
    · cases hnext
  case tick => exact Option.some.inj hnext ▸ rfl
  all_goals
    split at hnext
    · exact Option.some.inj hnext ▸ rfl
    · cases hnext

end Sync

/-! ### What a wait returns -/

section Runs

variable {created : ℕ} {world world' : Sync.World Unit}
  {history : List (Bool × Option (List UInt8))}

lemma UnitAction.step_cases {action : UnitAction} {step : Sync.Action Unit}
    (h : action.step = some step) :
    (∃ success msg, callbacks world action = [(success, msg)] ∧
      step = .complete .raw (unitResult success msg)) ∨
    callbacks world action = [] ∧ ∀ result, step ≠ .complete .raw result := by
  rcases action with ⟨_ | _, success, msg⟩ | ⟨other⟩
  · cases h
    refine .inr ⟨rfl, fun result heq => ?_⟩
    cases heq
  · cases h
    exact .inl ⟨success, msg, rfl, rfl⟩
  · cases other <;> cases h <;> refine .inr ⟨rfl, fun result heq => ?_⟩ <;> cases heq

/-- The history of the completion has the callbacks as calls. -/
lemma unit_of_reachable (h : (unitSystem created).Reachable (world, history)) :
    world.Balances ∧
      calls world.shared.log = history.map fun callback => unitResult callback.1 callback.2 := by
  refine h.invariant (P := fun state => state.1.Balances ∧ calls state.1.shared.log =
    state.2.map fun callback => unitResult callback.1 callback.2) ?_ ?_
  · rintro ⟨world, history⟩ ⟨rfl, hhistory⟩
    dsimp only at hhistory
    subst hhistory
    exact ⟨handover_new, rfl⟩
  · rintro ⟨world, history⟩ action ⟨world', history'⟩ ⟨hbalances, hcalls⟩ ⟨hnext, hhistory⟩
    obtain ⟨step, haction, hstep⟩ := Option.bind_eq_some_iff.mp hnext
    refine ⟨hbalances.next hstep, ?_⟩
    dsimp only at hcalls hhistory ⊢
    rw [hhistory]
    rcases UnitAction.step_cases haction with
      ⟨success, msg, hcallback, rfl⟩ | ⟨hcallback, hother⟩
    · rw [hcallback, List.map_append, ← hcalls]
      unfold Sync.World.next at hstep
      dsimp only at hstep
      split_ifs at hstep
      rw [← Option.some.inj hstep]
      exact calls_swap ..
    · rw [hcallback, List.nil_append, ← hcalls]
      exact Sync.calls_next hstep hother

/-- A wait returns what the first callback has said, however many others come: success, the message if
it is UTF-8, and otherwise a text that says that nothing is known. -/
theorem unitCompletion_returns_first (h : (unitSystem created).Reachable (world, history))
    {result : Except String Unit} (hreturned : .returned (some result) ∈ world.shared.log) :
    ∃ later success msg, history = later ++ [(success, msg)] ∧
      (success = true → result = .ok ()) ∧
      (success = false → ∀ text, msg = some (utf8 text) → result = .error (String.ofList text)) ∧
      (success = false → (∀ text, msg ≠ some (utf8 text)) → result = .error "Unknown error") := by
  obtain ⟨hbalances, hcalls⟩ := unit_of_reachable h
  have honeShot := (Sync.isOneShot hbalances).oneShot
  obtain ⟨after, before, hsplit⟩ :=
    List.append_of_mem (honeShot.returns result hreturned)
  have hfirst := (honeShot.firstWins after before result true hsplit).mp rfl
  have hlast : calls world.shared.log = calls after ++ [result] := by
    rw [hsplit, calls, List.filterMap_append]
    congr 1
    exact congrArg (result :: ·) (calls_eq_nil hfirst)
  rw [hcalls, List.map_eq_append_iff] at hlast
  obtain ⟨later, first, rfl, -, hfirst⟩ := hlast
  obtain ⟨⟨success, msg⟩, rfl, hresult⟩ := List.map_eq_singleton_iff.mp hfirst
  dsimp only at hresult
  subst hresult
  refine ⟨later, success, msg, rfl, ?_, ?_, ?_⟩
  · rintro rfl
    rfl
  · rintro rfl text rfl
    exact congrArg Except.error (errorFromCstr_utf8 text)
  · rintro rfl hunknown
    exact congrArg Except.error (errorFromCstr_unknown hunknown)

end Runs

/-- A failure with a message, after which a success comes too late. -/
theorem unitCompletion_returns_first_denied :
    let msg := some (utf8 ['n', 'o'])
    let state := (System.replay (System.recordedNext unitNext callbacks) (Sync.World.start 0, [])
      [.callback .raw false msg, .callback .raw true none, .other .winner, .other .wait,
        .other .check, .other .finish]).get rfl
    let result := unitResult false msg
    ∃ later success msg, state.2 = later ++ [(success, msg)] ∧
      (success = true → result = .ok ()) ∧
      (success = false → ∀ text, msg = some (utf8 text) → result = .error (String.ofList text)) ∧
      (success = false → (∀ text, msg ≠ some (utf8 text)) → result = .error "Unknown error") := by
  intro msg state result
  have hreach : (unitSystem 0).Reachable state := System.reachable_recorded_replay rfl
  have hpair : (unitSystem 0).Reachable (state.1, state.2) := hreach
  exact unitCompletion_returns_first hpair (.head _)

end DoomFishUtils.Completion

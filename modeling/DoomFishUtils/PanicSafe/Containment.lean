import DoomFishUtils.PanicSafe.Model

/-!
# No panic leaves the helpers

A payload may panic when it is destroyed, with a payload that does so too, and so on.  The
boundaries stop every panic of the code inside and of the payloads; the last payload is forgotten.
-/

namespace DoomFishUtils.PanicSafe

set_option autoImplicit false

open DoomFishUtils.Library

variable {P σ E R : Type} {panics : Panics P σ}

/-- The events of the code inside. -/
def own (events : List (Event P E)) : List E :=
  events.filterMap fun
    | .own event => some event
    | _ => none

@[simp] lemma own_append (events later : List (Event P E)) :
    own (events ++ later) = own events ++ own later :=
  List.filterMap_append

@[simp] lemma own_nil : own ([] : List (Event P E)) = [] :=
  rfl

/-! ### The helpers -/

section Helpers

variable {s : σ}

lemma ends_drop (payload : P) :
    (panics.drop payload : Code P σ (Event P E) Unit).Ends s fun _ _ events => own events = [] :=
  Code.ends_run rfl

lemma returns_dropPayloadBestEffort (payload : P) :
    (panics.dropPayloadBestEffort payload : Code P σ (Event P E) Unit).Returns s
      fun _ _ events => own events = [] := by
  refine (ends_drop payload).catchUnwind.bind fun ending s' events hown => ?_
  rcases ending with undroppable | _
  · exact Code.returns_emit ((own_append events _).trans (by rw [hown]; rfl))
  · exact Code.returns_pure (by simp [hown])

lemma returns_logCallbackPanic (site : String) (payload : P) :
    (panics.logCallbackPanic site payload : Code P σ (Event P E) Unit).Returns s
      fun _ _ events => own events = [] := by
  have hwrite : ∀ line, (Code.catchUnwind (.run (.wrote line) (panics.eprintln line)) :
      Code P σ (Event P E) (Except P Unit)).Returns s fun _ _ events => own events = [] :=
    fun _ => Code.Ends.catchUnwind (Code.ends_run rfl)
  refine (hwrite _).bind fun ending s' events hown => ?_
  rcases ending with second | _
  · exact (returns_dropPayloadBestEffort second).mono fun _ _ later hlater => by
      simp [hown, hlater]
  · exact Code.returns_pure (by simp [hown])

/-- The code inside is run once; the answer is its result, if it has one. -/
lemma returns_catchUserPanicResult {site : String} {f : Code P σ (Event P E) R}
    (post : Except P R → σ → List E → Prop)
    (h : f.Ends s fun ending s' events => post ending s' (own events)) :
    (panics.catchUserPanicResult site f).Returns s fun result _ events =>
      ∃ ending s', post ending s' (own events) ∧ result = ending.toOption := by
  refine Code.Returns.bind (Q := fun boundary _ events => ∃ ending s',
    post ending s' (own events) ∧ boundary.toOption.join = ending.toOption) ?_ ?_
  · refine Code.Ends.catchUnwind (h.catchUnwind.bind fun ending s' events hpost => ?_)
    rcases ending with payload | result
    · refine (returns_logCallbackPanic site payload).holding.bind fun _ s'' logged hlogged => ?_
      refine (ends_drop payload).bind (fun _ s''' dropped hdropped => ?_) ?_
      · exact Code.ends_pure ⟨.error payload, s', by simpa [hlogged, hdropped] using hpost, rfl⟩
      · intro second s''' dropped hdropped
        exact ⟨.error payload, s', by simpa [hlogged, hdropped] using hpost, rfl⟩
    · exact Code.ends_pure ⟨.ok result, s', by simpa using hpost, rfl⟩
  · rintro boundary s' events ⟨ending, s'', hpost, hresult⟩
    rcases boundary with payload | result
    · refine (returns_logCallbackPanic site payload).holding.bind fun _ _ logged hlogged => ?_
      refine (returns_dropPayloadBestEffort payload).bind fun _ _ dropped hdropped => ?_
      exact Code.returns_pure ⟨ending, s'', by simpa [hlogged, hdropped] using hpost, hresult⟩
    · exact Code.returns_pure ⟨ending, s'', by simpa using hpost, hresult⟩

end Helpers

/-! ### An explicit cleanup -/

section Cleanup

variable {client : Client P σ R} {s : σ}

/-- A phase is the client's code, run in some state. -/
def Client.Runs (client : Client P σ R) : Phase P R → Prop
  | .callback ending => ∃ s, (client.callback s).1 = ending
  | .cleanup ending => ∃ s, (client.cleanup s).1 = ending
  | .dropCallback ending => ∃ s, (client.dropCallback s).1 = ending
  | .dropCleanup ending => ∃ s, (client.dropCleanup s).1 = ending
  | .dropState ending => ∃ s, (client.dropState s).1 = ending
  | .dropResult result ending => ∃ s, (client.dropResult result s).1 = ending

/-- The endings of the five phases of a call. -/
structure Endings (P R : Type) where
  callback : Except P R
  cleanup : Except P Unit
  dropCallback : Except P Unit
  dropCleanup : Except P Unit
  dropState : Except P Unit

namespace Endings

variable (endings : Endings P R)

/-- The phases in their order. -/
def phases : List (Phase P R) :=
  [.callback endings.callback, .cleanup endings.cleanup, .dropCallback endings.dropCallback,
    .dropCleanup endings.dropCleanup, .dropState endings.dropState]

/-- Every phase after the callback has finished. -/
def Cleaned : Prop :=
  endings.cleanup = .ok () ∧ endings.dropCallback = .ok () ∧ endings.dropCleanup = .ok () ∧
    endings.dropState = .ok ()

/-- What is destroyed after the phases: the result, if it is not returned. -/
def Leftover (result : Option R) (leftover : List (Phase P R)) : Prop :=
  match result, endings.callback with
  | none, .ok unreturned => ∃ ending, leftover = [.dropResult unreturned ending]
  | _, _ => leftover = []

end Endings

/-- A call with an explicit cleanup has run the client's five phases once each and in order. -/
def Client.Contains (client : Client P σ R) (result : Option R) (phases : List (Phase P R)) :
    Prop :=
  (∀ phase ∈ phases, client.Runs phase) ∧ ∃ (endings : Endings P R) (leftover : List (Phase P R)),
    phases = endings.phases ++ leftover ∧
      (∀ value, result = some value ↔ endings.callback = .ok value ∧ endings.Cleaned) ∧
      endings.Leftover result leftover

lemma returns_part {α : Type} {site : String} (phase : Except P α → Phase P R)
    (foreign : Foreign P σ α) :
    (panics.catchUserPanicResult site (Client.part phase foreign)).Returns s fun result _ events =>
      ∃ ending, (∃ s, (foreign s).1 = ending) ∧ own events = [phase ending] ∧
        result = ending.toOption := by
  refine Code.Returns.mono (returns_catchUserPanicResult
    (fun ending _ phases => (∃ s, (foreign s).1 = ending) ∧ phases = [phase ending])
    (Code.ends_run ⟨⟨s, rfl⟩, rfl⟩)) ?_
  rintro result s' events ⟨ending, -, ⟨hran, hown⟩, hresult⟩
  exact ⟨ending, hran, hown, hresult⟩

lemma toOption_isSome_iff {ending : Except P Unit} : ending.toOption.isSome ↔ ending = .ok () := by
  rcases ending with payload | ⟨⟩ <;> simp [Except.toOption]

lemma toOption_eq_some_iff {ending : Except P R} {value : R} :
    ending.toOption = some value ↔ ending = .ok value := by
  rcases ending with payload | result <;> simp [Except.toOption]

/-- What the five phases yield, with what is destroyed after them. -/
lemma contains_of_endings {endings : Endings P R} {result : Option R} {leftover : List (Phase P R)}
    (hruns : ∀ phase ∈ endings.phases, client.Runs phase)
    (hleftover : ∀ phase ∈ leftover, client.Runs phase)
    (hresult : ∀ value, result = some value ↔ endings.callback = .ok value ∧ endings.Cleaned)
    (hleft : endings.Leftover result leftover) :
    client.Contains result (endings.phases ++ leftover) :=
  ⟨List.forall_mem_append.mpr ⟨hruns, hleftover⟩, endings, leftover, rfl, hresult, hleft⟩

/-- A result that is not returned is destroyed once. -/
lemma returns_dropUnreturned {site : String} {callbackResult : Option R} :
    (client.dropUnreturned panics site callbackResult).Returns s fun _ _ events =>
      (∀ phase ∈ own events, client.Runs phase) ∧
        match callbackResult with
        | some unreturned => ∃ ending, own events = [.dropResult unreturned ending]
        | none => own events = [] := by
  rcases callbackResult with _ | unreturned
  · exact Code.returns_pure ⟨by simp, rfl⟩
  · refine (returns_part (.dropResult unreturned) (client.dropResult unreturned)).bind ?_
    rintro result s' events ⟨ending, hran, hown, -⟩
    refine Code.returns_pure ⟨?_, ending, by rw [List.append_nil, hown]⟩
    rw [List.append_nil, hown]
    exact List.forall_mem_singleton.mpr hran

lemma returns_withCleanup (panics : Panics P σ) (client : Client P σ R) (site : String) (s : σ) :
    (client.catchUserPanicResultWithCleanup panics site).Returns s fun result _ events =>
      client.Contains result (own events) := by
  refine (returns_part _ _).holding.bind ?_
  rintro result₁ s₁ events₁ ⟨callback, hcallback, hown₁, rfl⟩
  refine (returns_part _ _).holding.bind ?_
  rintro result₂ s₂ events₂ ⟨cleanup, hcleanup, hown₂, rfl⟩
  refine (returns_part _ _).holding.bind ?_
  rintro result₃ s₃ events₃ ⟨dropCallback, hdropCallback, hown₃, rfl⟩
  refine (returns_part _ _).holding.bind ?_
  rintro result₄ s₄ events₄ ⟨dropCleanup, hdropCleanup, hown₄, rfl⟩
  refine (returns_part _ _).holding.bind ?_
  rintro result₅ s₅ events₅ ⟨dropState, hdropState, hown₅, rfl⟩
  let endings : Endings P R := ⟨callback, cleanup, dropCallback, dropCleanup, dropState⟩
  have hphases : own (events₁ ++ (events₂ ++ (events₃ ++ (events₄ ++ events₅)))) =
      endings.phases := by
    simp only [own_append, hown₁, hown₂, hown₃, hown₄, hown₅]
    rfl
  have hruns : ∀ phase ∈ endings.phases, client.Runs phase := by
    simp only [endings, Endings.phases, List.forall_mem_cons]
    exact ⟨hcallback, hcleanup, hdropCallback, hdropCleanup, hdropState, by simp⟩
  have hcleaned : (dropCallback.toOption.isSome && cleanup.toOption.isSome &&
      dropCleanup.toOption.isSome && dropState.toOption.isSome) = true ↔ endings.Cleaned := by
    simp only [Bool.and_eq_true, toOption_isSome_iff, Endings.Cleaned, endings]
    tauto
  split_ifs with hfinished
  · refine Code.returns_pure ?_
    change client.Contains callback.toOption (own _)
    rw [List.append_nil, hphases, ← List.append_nil endings.phases]
    refine contains_of_endings hruns (by simp) (fun value => ?_) ?_
    · rw [and_iff_left (hcleaned.mp hfinished)]
      exact toOption_eq_some_iff
    · rcases callback with payload | value <;> rfl
  · rw [hcleaned] at hfinished
    refine returns_dropUnreturned.bind ?_
    rintro _ s₆ events₆ ⟨hruns₆, hdestroyed⟩
    refine Code.returns_pure ?_
    have hall : own (events₁ ++ (events₂ ++ (events₃ ++ (events₄ ++ (events₅ ++ events₆))))) =
        endings.phases ++ own events₆ := by
      rw [← hphases]
      simp only [own_append, List.append_assoc]
    change client.Contains none (own _)
    rw [List.append_nil, hall]
    refine contains_of_endings hruns hruns₆ (fun value => ?_) ?_
    · simp [hfinished]
    · rcases callback with payload | value <;> exact hdestroyed

end Cleanup

/-- No helper unwinds or aborts, whatever the code inside, its destructors, the payloads and the
diagnostic write do. -/
theorem panics_contained (panics : Panics P σ) (site : String) (s : σ) :
    (∀ client : Client P σ R, ∃ result s' events,
      client.catchUserPanicResultWithCleanup panics site s = ⟨.returned result, s', events⟩ ∧
        client.Contains result (own events)) ∧
    ∀ (note : Except P R → E) (body : Foreign P σ R), ∃ result s' events,
      panics.catchUserPanicResult site (.run (fun ending => .own (note ending)) body) s =
          ⟨.returned result, s', events⟩ ∧
        own events = [note (body s).1] ∧ ∀ value, result = some value ↔ (body s).1 = .ok value := by
  constructor
  · intro client
    exact (returns_withCleanup panics client site s).run_eq
  · intro note body
    refine Code.Returns.run_eq (Code.Returns.mono (returns_catchUserPanicResult
      (fun ending _ events => ending = (body s).1 ∧ events = [note (body s).1])
      (Code.ends_run ⟨rfl, rfl⟩)) ?_)
    rintro result s' events ⟨ending, -, ⟨rfl, hown⟩, rfl⟩
    exact ⟨hown, fun value => toOption_eq_some_iff⟩

end DoomFishUtils.PanicSafe

import DoomFishUtils.CallbackContext.Model
import DoomFishUtils.Library.History

/-!
# The lifetime of a context

The count is that of the references in Rust and in foreign code, and the value goes with the last
of them.  Nothing uses it after that, and no callback begins after a load that follows a store of
the flag.
-/

namespace DoomFishUtils.CallbackContext

set_option autoImplicit false

open DoomFishUtils.Library DoomFishUtils.PanicSafe

variable {P σ R : Type} {context : Context P σ} {world world' : World P σ R} {call : ℕ}

/-! ### The steps -/

section Steps

/-- The destructor has run if the reference was the last one. -/
def World.destructions (context : Context P σ) (world : World P σ R) : List (Event P R) :=
  if world.strong = 1 then [.destroyed (context.destructor world.user).1] else []

lemma ends_dropValue (context : Context P σ) (world : World P σ R) :
    (world.dropValue context).Ends world.user fun _ _ events =>
      (own events).reverse.map Event.destroyed = world.destructions context := by
  unfold World.dropValue World.destructions
  split_ifs with hlast
  · exact Code.ends_run rfl
  · exact Code.ends_pure rfl

lemma release_eq (context : Context P σ) (world : World P σ R) :
    ∃ user, world.release context =
      { world with
        strong := world.strong - 1
        user := user
        log := .released (.returned ()) ::
          (world.destructions context ++ .lowered :: world.log) } := by
  have hreturns : (context.panics.catchUserPanic "CallbackContext::RELEASE"
      (world.dropValue context)).Returns world.user fun _ _ events =>
        (own events).reverse.map Event.destroyed = world.destructions context := by
    refine Code.Returns.bind (returns_catchUserPanicResult
      (fun _ _ events => events.reverse.map Event.destroyed = world.destructions context)
      (ends_dropValue context world)) ?_
    rintro result user events ⟨ending, -, hown, -⟩
    refine Code.returns_pure ?_
    rw [List.append_nil]
    exact hown
  rcases hreturns.run_eq with ⟨_, user, events, hran, hown⟩
  refine ⟨user, ?_⟩
  unfold World.release
  rw [hran, ← hown]

lemma dropInner_eq (context : Context P σ) (world : World P σ R) :
    ∃ user, world.dropInner context =
      { world with
        strong := world.strong - 1
        handle := .gone
        user := user
        log := world.destructions context ++ .lowered :: world.log } := by
  have hends := ends_dropValue context world
  unfold Code.Ends at hends
  unfold World.dropInner
  rcases hran : world.dropValue context world.user with ⟨value | payload | _, user, events⟩ <;>
    rw [hran] at hends
  · exact ⟨user, by rw [← hends]⟩
  · exact ⟨user, by rw [← hends]⟩
  · exact hends.elim

/-- The boundary of `with` answers with the result of the body, or with nothing. -/
lemma finish_eq (context : Context P σ) (world : World P σ R) (call : ℕ) (site : String)
    (body : Foreign P σ R) : ∃ user, ∃ ending, world.finish context call site body =
      { world.setProgress call (.answered (.returned ending.toOption)) with
        user := user
        log := .answered call (.returned ending.toOption) :: .ended call ending :: world.log } := by
  have hreturns : (context.panics.catchUserPanicResult site (.run .own body)).Returns world.user
      fun result _ events => ∃ ending, ∃ _ : σ, own events = [ending] ∧ result = ending.toOption :=
    returns_catchUserPanicResult (fun ending _ events => events = [ending]) (Code.ends_run rfl)
  rcases hreturns.run_eq with ⟨result, user, events, hran, ending, -, hown, rfl⟩
  refine ⟨user, ending, ?_⟩
  unfold World.finish
  rw [hran]
  dsimp only
  rw [hown]
  rfl

/-- What a step does, with what has allowed it. -/
inductive World.Step (context : Context P σ) (world : World P σ R) : World P σ R → Prop
  | null : Step context world world
  | raise (hheld : world.held = true) :
      Step context world
        { world with
          strong := world.strong + 1
          refs := world.refs + 1
          log := .retained :: world.log }
  | release (user : σ) (hrefs : world.refs ≠ 0)
      (hbacked : world.quiet = true ∨ world.handle ≠ .gone ∨ 1 < world.refs) :
      Step context world
        { world with
          strong := world.strong - 1
          refs := world.refs - 1
          user := user
          log := .released (.returned ()) ::
            (world.destructions context ++ .lowered :: world.log) }
  | callNull (site : String) :
      Step context world
        { world with
          calls := world.calls ++ [⟨site, .answered (.returned none)⟩]
          log := .answered world.calls.length (.returned none) :: world.log }
  | call (site : String) (hheld : world.held = true) :
      Step context world { world with calls := world.calls ++ [⟨site, .entered⟩] }
  | load (call : ℕ) (site : String) (hcall : world.calls[call]? = some ⟨site, .entered⟩) :
      Step context world (world.load call)
  | start (call : ℕ) (site : String) (hcall : world.calls[call]? = some ⟨site, .admitted⟩) :
      Step context world
        { world.setProgress call .running with log := .began call :: world.log }
  | finish (call : ℕ) (site : String) (user : σ) (ending : Except P R)
      (hcall : world.calls[call]? = some ⟨site, .running⟩) :
      Step context world
        { world.setProgress call (.answered (.returned ending.toOption)) with
          user := user
          log := .answered call (.returned ending.toOption) :: .ended call ending :: world.log }
  | deactivate (hlive : world.handle = .live) : Step context world world.store
  | dropHandle (hlive : world.handle = .live) :
      Step context world { world.store with handle := .dropping }
  | dropInner (user : σ) (hdropping : world.handle = .dropping)
      (hbacked : world.quiet = true ∨ world.refs ≠ 0) :
      Step context world
        { world with
          strong := world.strong - 1
          handle := .gone
          user := user
          log := world.destructions context ++ .lowered :: world.log }

lemma World.step_of_raise (hheld : world.held = true)
    (hraise : world.raise.map World.gainRef = some world') : World.Step context world world' := by
  rcases Option.map_eq_some_iff.mp hraise with ⟨raised, hraised, rfl⟩
  rcases Option.ite_none_right_eq_some.mp hraised with ⟨-, hworld⟩
  rcases Option.some.inj hworld with rfl
  exact .raise hheld

lemma World.step_of_next {action : Action P σ R} (hnext : world.next context action = some world') :
    World.Step context world world' := by
  rcases action with _ | ⟨_ | _⟩ | ⟨_ | _⟩ | ⟨_ | _, site⟩ | call | call | ⟨call, body⟩ | _ | _ | _ <;>
    unfold World.next at hnext <;> dsimp only at hnext
  case retainedPtr =>
    rcases Option.ite_none_right_eq_some.mp hnext with ⟨hlive, hraise⟩
    exact World.step_of_raise (by simp [World.held, hlive]) hraise
  case retain.null =>
    rcases Option.some.inj hnext with rfl
    exact .null
  case retain.raw =>
    rcases Option.ite_none_right_eq_some.mp hnext with ⟨hheld, hraise⟩
    exact World.step_of_raise hheld hraise
  case release.null =>
    rcases Option.some.inj hnext with rfl
    exact .null
  case release.raw =>
    rcases Option.ite_none_right_eq_some.mp hnext with ⟨⟨hrefs, hbacked⟩, hworld⟩
    rcases release_eq context world with ⟨user, heq⟩
    rw [← Option.some.inj hworld, heq]
    exact .release user hrefs hbacked
  case callWith.null =>
    rcases Option.some.inj hnext with rfl
    exact .callNull site
  case callWith.raw =>
    rcases Option.ite_none_right_eq_some.mp hnext with ⟨hheld, hworld⟩
    rcases Option.some.inj hworld with rfl
    exact .call site hheld
  case load =>
    split at hnext
    · next site hcall =>
      rcases Option.some.inj hnext with rfl
      exact .load call site hcall
    · cases hnext
  case start =>
    split at hnext
    · next site hcall =>
      rcases Option.some.inj hnext with rfl
      exact .start call site hcall
    · cases hnext
  case finish =>
    split at hnext
    · next site hcall =>
      rcases finish_eq context world call site body with ⟨user, ending, heq⟩
      rw [← Option.some.inj hnext, heq]
      exact .finish call site user ending hcall
    · cases hnext
  case deactivate =>
    rcases Option.ite_none_right_eq_some.mp hnext with ⟨hlive, hworld⟩
    rcases Option.some.inj hworld with rfl
    exact .deactivate hlive
  case dropHandle =>
    rcases Option.ite_none_right_eq_some.mp hnext with ⟨hlive, hworld⟩
    rcases Option.some.inj hworld with rfl
    exact .dropHandle hlive
  case dropInner =>
    rcases Option.ite_none_right_eq_some.mp hnext with ⟨⟨hdropping, hbacked⟩, hworld⟩
    rcases dropInner_eq context world with ⟨user, heq⟩
    rw [← Option.some.inj hworld, heq]
    exact .dropInner user hdropping hbacked

end Steps

/-! ### The references -/

section References

def Event.isDestroyed : Event P R → Bool
  | .destroyed _ => true
  | _ => false

/-- The references of the handle and of foreign code against the count, and the value that goes
with the last of them. -/
structure Owned (world : World P σ R) : Prop where
  count : world.strong = (if world.handle = .gone then 0 else 1) + world.refs
  destroyed : world.log.countP Event.isDestroyed = if world.strong = 0 then 1 else 0
  /-- A call of `with` that is under way has a reference behind it. -/
  backed : world.quiet = false → world.strong ≠ 0

lemma owned_new (user : σ) : Owned (World.new user : World P σ R) where
  count := rfl
  destroyed := rfl
  backed h := by cases h

lemma Owned.held_iff (h : Owned world) : world.held = true ↔ world.strong ≠ 0 := by
  rw [h.count]
  unfold World.held
  split_ifs with hgone <;> simp [hgone]

lemma countP_destructions (context : Context P σ) (world : World P σ R) :
    (world.destructions context).countP Event.isDestroyed = if world.strong = 1 then 1 else 0 := by
  unfold World.destructions
  split_ifs <;> rfl

/-- The last reference takes the value with it. -/
lemma countP_lower (h : Owned world) (hstrong : world.strong ≠ 0) :
    (world.destructions context ++ .lowered :: world.log).countP Event.isDestroyed =
      if world.strong - 1 = 0 then 1 else 0 := by
  rw [List.countP_append, countP_destructions, List.countP_cons_of_neg (by simp [Event.isDestroyed]),
    h.destroyed, if_neg hstrong]
  split_ifs <;> omega

lemma not_quiet_of_pending {site : String} {before : Progress P R}
    (hcall : world.calls[call]? = some ⟨site, before⟩) (hpending : before.isPending = true) :
    world.quiet = false := by
  unfold World.quiet
  rw [List.all_eq_false]
  exact ⟨_, List.mem_of_getElem? hcall, by simpa using hpending⟩

/-- A step that changes neither the count nor the references. -/
lemma Owned.keep (h : Owned world) (hstrong : world'.strong = world.strong)
    (hrefs : world'.refs = world.refs)
    (hhandle : world'.handle = .gone ↔ world.handle = .gone)
    (hlog : world'.log.countP Event.isDestroyed = world.log.countP Event.isDestroyed)
    (hbacked : world'.quiet = false → world.strong ≠ 0) : Owned world' where
  count := by simp only [hstrong, hrefs, hhandle, h.count]
  destroyed := by rw [hlog, hstrong, h.destroyed]
  backed hquiet := hstrong ▸ hbacked hquiet

lemma Owned.step (h : Owned world) (hstep : World.Step context world world') : Owned world' := by
  cases hstep with
  | null => exact h
  | raise hheld =>
    have hstrong := h.held_iff.mp hheld
    refine ⟨?_, ?_, fun _ => by simp⟩
    · change world.strong + 1 = _ + (world.refs + 1)
      rw [h.count, Nat.add_assoc]
    · change world.log.countP Event.isDestroyed = _
      rw [h.destroyed, if_neg hstrong, if_neg (Nat.succ_ne_zero _)]
  | release user hrefs hbacked =>
    have hstrong : world.strong ≠ 0 := by
      rw [h.count]
      omega
    refine ⟨?_, countP_lower h hstrong, fun hquiet => ?_⟩
    · change world.strong - 1 = (if world.handle = .gone then 0 else 1) + (world.refs - 1)
      rw [h.count]
      omega
    · change world.strong - 1 ≠ 0
      have hbusy : world.quiet ≠ true := Bool.eq_false_iff.mp hquiet
      rw [h.count]
      rcases hbacked with hidle | hhandle | hmore
      · exact absurd hidle hbusy
      · rw [if_neg hhandle]
        omega
      · omega
  | callNull site =>
    refine h.keep rfl rfl Iff.rfl rfl fun hquiet => h.backed ?_
    simpa [World.quiet, Progress.isPending] using hquiet
  | call site hheld => exact h.keep rfl rfl Iff.rfl rfl fun _ => h.held_iff.mp hheld
  | load call site hcall =>
    unfold World.load
    split_ifs with hactive
    · exact h.keep rfl rfl Iff.rfl rfl fun _ => h.backed (not_quiet_of_pending hcall rfl)
    · exact h.keep rfl rfl Iff.rfl rfl fun _ => h.backed (not_quiet_of_pending hcall rfl)
  | start call site hcall =>
    exact h.keep rfl rfl Iff.rfl rfl fun _ => h.backed (not_quiet_of_pending hcall rfl)
  | finish call site user ending hcall =>
    exact h.keep rfl rfl Iff.rfl rfl fun _ => h.backed (not_quiet_of_pending hcall rfl)
  | deactivate => exact h.keep rfl rfl Iff.rfl rfl h.backed
  | dropHandle hlive => exact h.keep rfl rfl (by simp [hlive]) rfl h.backed
  | dropInner user hdropping hbacked =>
    have hstrong : world.strong = 1 + world.refs := by
      rw [h.count, hdropping]
      rfl
    refine ⟨?_, countP_lower h (by omega), fun hquiet => ?_⟩
    · change world.strong - 1 = 0 + world.refs
      omega
    · change world.strong - 1 ≠ 0
      have hbusy : world.quiet ≠ true := Bool.eq_false_iff.mp hquiet
      rcases hbacked with hidle | hrefs
      · exact absurd hidle hbusy
      · omega

end References

/-! ### The calls of `with` -/

section Calls

/-- The call that an event belongs to. -/
def Event.owner : Event P R → Option ℕ
  | .loaded call _ => some call
  | .began call => some call
  | .ended call _ => some call
  | .answered call _ => some call
  | _ => none

/-- What the history says of a call, by where it is. -/
def CallTraced (log : List (Event P R)) (call : ℕ) : Option (Call P R) → Prop
  | some ⟨_, .admitted⟩ =>
    .loaded call false ∉ log ∧ (∀ ending, .ended call ending ∉ log) ∧
      (∀ answer, .answered call answer ∉ log) ∧ .began call ∉ log
  | some ⟨_, .running⟩ =>
    .loaded call false ∉ log ∧ (∀ ending, .ended call ending ∉ log) ∧
      ∀ answer, .answered call answer ∉ log
  | some ⟨_, .answered answer⟩ =>
    (.loaded call false ∈ log → .began call ∉ log ∧ answer = .returned none) ∧
      (.began call ∈ log → ∃ ending, .ended call ending ∈ log) ∧
      (∀ ending, .ended call ending ∈ log → answer = .returned ending.toOption) ∧
      ∀ answer', .answered call answer' ∈ log ↔ answer' = answer
  | _ => ∀ event ∈ log, event.owner ≠ some call

structure Traced (world : World P σ R) : Prop where
  flag : .stored ∈ world.log → world.active = false
  calls : ∀ call, CallTraced world.log call world.calls[call]?

lemma mem_append_iff_of_owner (log : List (Event P R)) {events : List (Event P R)}
    {event : Event P R}
    (hevents : ∀ event ∈ events, event.owner ≠ some call) (hevent : event.owner = some call) :
    event ∈ events ++ log ↔ event ∈ log := by
  rw [List.mem_append, or_iff_right]
  intro hmem
  exact hevents event hmem hevent

/-- Events of other calls say nothing of a call. -/
lemma CallTraced.append {log : List (Event P R)} {status : Option (Call P R)}
    (h : CallTraced log call status) (events : List (Event P R))
    (hevents : ∀ event ∈ events, event.owner ≠ some call) :
    CallTraced (events ++ log) call status := by
  have hloaded := mem_append_iff_of_owner log hevents
    (show (Event.loaded call false).owner = some call from rfl)
  have hbegan := mem_append_iff_of_owner log hevents
    (show (Event.began call).owner = some call from rfl)
  have hended := fun ending => mem_append_iff_of_owner log hevents
    (show (Event.ended call ending).owner = some call from rfl)
  have hanswered := fun answer => mem_append_iff_of_owner log hevents
    (show (Event.answered call answer).owner = some call from rfl)
  rcases status with _ | ⟨site, _ | _ | _ | answer⟩
  case none => exact List.forall_mem_append.mpr ⟨hevents, h⟩
  case entered => exact List.forall_mem_append.mpr ⟨hevents, h⟩
  all_goals
    unfold CallTraced at *
    simpa only [hloaded, hbegan, hended, hanswered] using h

/-- A call that has found the flag cleared is over. -/
lemma CallTraced.of_refused {log : List (Event P R)} {status : Option (Call P R)}
    (h : CallTraced log call status) (hloaded : .loaded call false ∈ log) :
    .began call ∉ log ∧ ∀ answer, .answered call answer ∈ log ↔ answer = .returned none := by
  rcases status with _ | ⟨site, _ | _ | _ | answer⟩
  case none => exact absurd rfl (h _ hloaded)
  case entered => exact absurd rfl (h _ hloaded)
  case admitted => exact absurd hloaded h.1
  case running => exact absurd hloaded h.1
  case answered =>
    rcases h.1 hloaded with ⟨hbegan, rfl⟩
    exact ⟨hbegan, h.2.2.2⟩

lemma CallTraced.of_ended {log : List (Event P R)} {status : Option (Call P R)}
    {ending : Except P R} {answer : Ending P (Option R)} (h : CallTraced log call status)
    (hended : .ended call ending ∈ log) (hanswered : .answered call answer ∈ log) :
    answer = .returned ending.toOption := by
  rcases status with _ | ⟨site, _ | _ | _ | answer'⟩
  case none => exact absurd rfl (h _ hended)
  case entered => exact absurd rfl (h _ hended)
  case admitted => exact absurd hended (h.2.1 _)
  case running => exact absurd hended (h.2.1 _)
  case answered => exact ((h.2.2.2 answer).mp hanswered).trans (h.2.2.1 ending hended)

/-- A step that moves no call. -/
lemma Traced.keep (h : Traced world) (events : List (Event P R))
    (hlog : world'.log = events ++ world.log) (hcalls : world'.calls = world.calls)
    (hflag : .stored ∈ events ∨ world.active = false → world'.active = false)
    (hevents : ∀ event ∈ events, event.owner = none) : Traced world' where
  flag hstored := by
    rw [hlog, List.mem_append] at hstored
    exact hflag (hstored.imp_right h.flag)
  calls other := by
    rw [hlog, hcalls]
    refine (h.calls other).append events fun event hmem => ?_
    simp [hevents event hmem]

/-- A step of one call. -/
lemma Traced.move (h : Traced world) (events : List (Event P R)) (progress : Progress P R)
    {site : String} {before : Progress P R} (hcall : world.calls[call]? = some ⟨site, before⟩)
    (hlog : world'.log = events ++ world.log)
    (hcalls : world'.calls = (world.setProgress call progress).calls)
    (hactive : world'.active = world.active)
    (hevents : ∀ event ∈ events, event.owner = some call)
    (hmoved : CallTraced (events ++ world.log) call (some ⟨site, progress⟩)) : Traced world' where
  flag hstored := by
    rw [hlog, List.mem_append] at hstored
    rcases hstored with hstored | hstored
    · cases hevents _ hstored
    · exact hactive.trans (h.flag hstored)
  calls other := by
    rw [hlog, hcalls]
    by_cases hother : call = other
    · have hcall' : (world.setProgress call progress).calls[call]? = some ⟨site, progress⟩ := by
        simp [World.setProgress, hcall]
      rw [← hother, hcall']
      exact hmoved
    · have hsame : (world.setProgress call progress).calls[other]? = world.calls[other]? := by
        simp [World.setProgress, hother]
      rw [hsame]
      refine (h.calls other).append events fun event hmem => ?_
      rw [hevents event hmem]
      exact fun howner => hother (Option.some.inj howner)

/-- The history says nothing of a call that has not loaded the flag. -/
lemma notMem_of_fresh {log : List (Event P R)} (h : ∀ event ∈ log, event.owner ≠ some call) :
    .loaded call false ∉ log ∧ .began call ∉ log ∧ (∀ ending, .ended call ending ∉ log) ∧
      ∀ answer, .answered call answer ∉ log :=
  ⟨fun hmem => h _ hmem rfl, fun hmem => h _ hmem rfl, fun _ hmem => h _ hmem rfl,
    fun _ hmem => h _ hmem rfl⟩

lemma traced_new (user : σ) : Traced (World.new user : World P σ R) where
  flag hstored := absurd hstored List.not_mem_nil
  calls _ _ hmem := absurd hmem List.not_mem_nil

lemma Traced.callNull (h : Traced world) (site : String) : Traced
    { world with
      calls := world.calls ++ [⟨site, .answered (.returned none)⟩]
      log := .answered world.calls.length (.returned none) :: world.log } where
  flag hstored := by
    rcases List.mem_cons.mp hstored with hstored | hstored
    · cases hstored
    · exact h.flag hstored
  calls other := by
    have hother := h.calls other
    rcases Nat.lt_trichotomy other world.calls.length with hlt | heq | hgt
    · rw [List.getElem?_append_left hlt]
      refine hother.append [_] (List.forall_mem_singleton.mpr fun hsame => ?_)
      exact Nat.ne_of_gt hlt (Option.some.inj hsame)
    · subst heq
      have hfresh : ∀ event ∈ world.log, event.owner ≠ some world.calls.length := by
        rwa [List.getElem?_eq_none (Nat.le_refl _)] at hother
      rcases notMem_of_fresh hfresh with ⟨hloaded, hbegan, hended, hanswered⟩
      rw [List.getElem?_concat_length]
      simp [CallTraced, hloaded, hbegan, hended, hanswered]
    · rw [List.getElem?_eq_none (by rw [List.length_append]; exact hgt)]
      rw [List.getElem?_eq_none (Nat.le_of_lt hgt)] at hother
      refine hother.append [_] (List.forall_mem_singleton.mpr fun hsame => ?_)
      exact Nat.ne_of_lt hgt (Option.some.inj hsame)

lemma Traced.enter (h : Traced world) (site : String) :
    Traced { world with calls := world.calls ++ [⟨site, .entered⟩] } where
  flag := h.flag
  calls other := by
    have hother := h.calls other
    rcases Nat.lt_trichotomy other world.calls.length with hlt | heq | hgt
    · rwa [List.getElem?_append_left hlt]
    · subst heq
      rw [List.getElem?_eq_none (Nat.le_refl _)] at hother
      rw [List.getElem?_concat_length]
      exact hother
    · rw [List.getElem?_eq_none (Nat.le_of_lt hgt)] at hother
      rwa [List.getElem?_eq_none (by rw [List.length_append]; exact hgt)]

lemma Traced.load (h : Traced world) {site : String}
    (hcall : world.calls[call]? = some ⟨site, .entered⟩) : Traced (world.load call) := by
  have hfresh : ∀ event ∈ world.log, event.owner ≠ some call := by
    have hbefore := h.calls call
    rwa [hcall] at hbefore
  rcases notMem_of_fresh hfresh with ⟨hloaded, hbegan, hended, hanswered⟩
  unfold World.load
  split_ifs with hactive
  · refine h.move [.loaded call true] .admitted hcall rfl rfl rfl (by simp [Event.owner]) ?_
    simp [CallTraced, hloaded, hbegan, hended, hanswered]
  · refine h.move [.answered call (.returned none), .loaded call false] (.answered (.returned none))
      hcall rfl rfl rfl (by simp [Event.owner]) ?_
    simp [CallTraced, hbegan, hended, hanswered]

lemma destructions_owner (context : Context P σ) (world : World P σ R) :
    ∀ event ∈ world.destructions context ++ [.lowered], event.owner = none := by
  unfold World.destructions
  split_ifs <;> simp [Event.owner]

lemma stored_notMem_destructions (context : Context P σ) (world : World P σ R) :
    .stored ∉ world.destructions context ++ [.lowered] := by
  unfold World.destructions
  split_ifs <;> simp

lemma Traced.step (h : Traced world) (hstep : World.Step context world world') :
    Traced world' := by
  cases hstep with
  | null => exact h
  | raise => exact h.keep [.retained] rfl rfl (by simp) (by simp [Event.owner])
  | release user =>
    have hevents := destructions_owner context world
    have hstored := stored_notMem_destructions context world
    refine h.keep (.released (.returned ()) :: (world.destructions context ++ [.lowered])) ?_ rfl ?_ ?_
    · simp
    · rintro (hmem | hactive)
      · exact absurd (List.mem_of_ne_of_mem (by simp) hmem) hstored
      · exact hactive
    · exact List.forall_mem_cons.mpr ⟨rfl, hevents⟩
  | callNull site => exact h.callNull site
  | call site => exact h.enter site
  | load call site hcall => exact h.load hcall
  | start call site hcall =>
    have hbefore := h.calls call
    rw [hcall] at hbefore
    refine h.move [.began call] .running hcall rfl rfl rfl (by simp [Event.owner]) ?_
    simp [CallTraced, hbefore.1, hbefore.2.1, hbefore.2.2.1]
  | finish call site user ending hcall =>
    have hbefore := h.calls call
    rw [hcall] at hbefore
    refine h.move [.answered call (.returned ending.toOption), .ended call ending]
      (.answered (.returned ending.toOption)) hcall rfl rfl rfl (by simp [Event.owner]) ?_
    simp [CallTraced, hbefore.1, hbefore.2.1, hbefore.2.2]
  | deactivate => exact h.keep [.stored] rfl rfl (fun _ => rfl) (by simp [Event.owner])
  | dropHandle => exact h.keep [.stored] rfl rfl (fun _ => rfl) (by simp [Event.owner])
  | dropInner user =>
    have hevents := destructions_owner context world
    have hstored := stored_notMem_destructions context world
    refine h.keep (world.destructions context ++ [.lowered]) (by simp) rfl ?_ hevents
    rintro (hmem | hactive)
    · exact absurd hmem hstored
    · exact hactive

end Calls

/-! ### The order of events -/

section Order

/-- The value has not been destroyed. -/
def Unfreed (log : List (Event P R)) : Prop :=
  ∀ event ∈ log, event.isDestroyed = false

/-- How an event stands to those before it: nothing is used after the value is destroyed, which
happens outside callback bodies, and a load after a store of the flag reads the stored value. -/
def Timely : Event P R → List (Event P R) → Prop
  | .loaded _ active, earlier => Unfreed earlier ∧ (.stored ∈ earlier → active = false)
  | .destroyed _, earlier =>
    Unfreed earlier ∧ ∀ call, .began call ∈ earlier → ∃ ending, .ended call ending ∈ earlier
  | .answered _ _, _ => True
  | .released _, _ => True
  | _, earlier => Unfreed earlier

lemma unfreed_iff {log : List (Event P R)} : Unfreed log ↔ log.countP Event.isDestroyed = 0 := by
  rw [List.countP_eq_zero]
  simp only [Unfreed, Bool.not_eq_true]

lemma Owned.unfreed (h : Owned world) (hstrong : world.strong ≠ 0) : Unfreed world.log := by
  rw [unfreed_iff, h.destroyed, if_neg hstrong]

/-- Where no call is under way, every body that has begun has ended. -/
lemma Traced.ended_of_quiet (h : Traced world) (hquiet : world.quiet = true)
    (hbegan : .began call ∈ world.log) : ∃ ending, .ended call ending ∈ world.log := by
  have hcall := h.calls call
  rcases hstatus : world.calls[call]? with _ | ⟨site, progress⟩
  · rw [hstatus] at hcall
    exact absurd rfl (hcall _ hbegan)
  · have hdone := List.all_eq_true.mp hquiet _ (List.mem_of_getElem? hstatus)
    rw [hstatus] at hcall
    rcases progress with _ | _ | _ | answer
    · cases hdone
    · cases hdone
    · cases hdone
    · exact hcall.2.1 hbegan

/-- A reference goes. -/
lemma timely_lower (howned : Owned world) (htraced : Traced world)
    (h : Throughout Timely world.log) (hstrong : world.strong ≠ 0)
    (hlast : world.strong = 1 → world.quiet = true) :
    Throughout Timely (world.destructions context ++ .lowered :: world.log) := by
  have hunfreed := howned.unfreed hstrong
  have hlowered : Throughout Timely (.lowered :: world.log) := ⟨hunfreed, h⟩
  unfold World.destructions
  split_ifs with hone
  · refine ⟨⟨List.forall_mem_cons.mpr ⟨rfl, hunfreed⟩, fun call hbegan => ?_⟩, hlowered⟩
    have hmem : Event.began call ∈ world.log := List.mem_of_ne_of_mem (by simp) hbegan
    rcases htraced.ended_of_quiet (hlast hone) hmem with ⟨ending, hended⟩
    exact ⟨ending, List.mem_cons_of_mem _ hended⟩
  · exact hlowered

lemma timely_step (howned : Owned world) (htraced : Traced world)
    (h : Throughout Timely world.log) (hstep : World.Step context world world') :
    Throughout Timely world'.log := by
  have hpending : ∀ {call : ℕ} {site : String} {progress : Progress P R},
      world.calls[call]? = some ⟨site, progress⟩ → progress.isPending = true → Unfreed world.log :=
    fun hcall hprogress => howned.unfreed (howned.backed (not_quiet_of_pending hcall hprogress))
  cases hstep with
  | null => exact h
  | raise hheld => exact ⟨howned.unfreed (howned.held_iff.mp hheld), h⟩
  | release user hrefs hbacked =>
    have hstrong : world.strong ≠ 0 := by
      rw [howned.count]
      omega
    refine ⟨trivial, timely_lower howned htraced h hstrong fun hlast => ?_⟩
    rcases hbacked with hquiet | hhandle | hmore
    · exact hquiet
    · rw [howned.count, if_neg hhandle] at hlast
      omega
    · rw [howned.count] at hlast
      omega
  | callNull site => exact ⟨trivial, h⟩
  | call site => exact h
  | load call site hcall =>
    have hunfreed := hpending hcall rfl
    unfold World.load
    split_ifs with hactive
    · refine ⟨⟨hunfreed, fun hstored => ?_⟩, h⟩
      exact hactive.symm.trans (htraced.flag hstored)
    · exact ⟨trivial, ⟨hunfreed, fun _ => rfl⟩, h⟩
  | start call site hcall => exact ⟨hpending hcall rfl, h⟩
  | finish call site user ending hcall => exact ⟨trivial, hpending hcall rfl, h⟩
  | deactivate hlive =>
    exact ⟨howned.unfreed (howned.held_iff.mp (by simp [World.held, hlive])), h⟩
  | dropHandle hlive =>
    exact ⟨howned.unfreed (howned.held_iff.mp (by simp [World.held, hlive])), h⟩
  | dropInner user hdropping hbacked =>
    have hstrong : world.strong = 1 + world.refs := by
      rw [howned.count, hdropping]
      rfl
    refine timely_lower howned htraced h (by omega) fun hlast => ?_
    exact hbacked.resolve_right (by omega)

end Order

/-! ### Panics -/

section Containment

/-- A call returns to foreign code. -/
def Event.Contained : Event P R → Prop
  | .answered _ answer => ∃ result, answer = .returned result
  | .released ending => ending = .returned ()
  | _ => True

lemma contained_destructions (context : Context P σ) (world : World P σ R) :
    ∀ event ∈ world.destructions context, event.Contained := by
  unfold World.destructions
  split_ifs <;> simp [Event.Contained]

lemma contained_step (h : ∀ event ∈ world.log, event.Contained)
    (hstep : World.Step context world world') : ∀ event ∈ world'.log, event.Contained := by
  have hlowered : ∀ event ∈ world.destructions context ++ .lowered :: world.log,
      event.Contained :=
    List.forall_mem_append.mpr
      ⟨contained_destructions context world, List.forall_mem_cons.mpr ⟨trivial, h⟩⟩
  cases hstep with
  | null => exact h
  | raise => exact List.forall_mem_cons.mpr ⟨trivial, h⟩
  | release => exact List.forall_mem_cons.mpr ⟨rfl, hlowered⟩
  | callNull => exact List.forall_mem_cons.mpr ⟨⟨none, rfl⟩, h⟩
  | call => exact h
  | load =>
    unfold World.load
    split_ifs
    · exact List.forall_mem_cons.mpr ⟨trivial, h⟩
    · exact List.forall_mem_cons.mpr ⟨⟨none, rfl⟩, List.forall_mem_cons.mpr ⟨trivial, h⟩⟩
  | start => exact List.forall_mem_cons.mpr ⟨trivial, h⟩
  | finish call site user ending =>
    exact List.forall_mem_cons.mpr ⟨⟨ending.toOption, rfl⟩, List.forall_mem_cons.mpr ⟨trivial, h⟩⟩
  | deactivate => exact List.forall_mem_cons.mpr ⟨trivial, h⟩
  | dropHandle => exact List.forall_mem_cons.mpr ⟨trivial, h⟩
  | dropInner => exact hlowered

/-- The flag, the count and who holds references. -/
def World.counters (world : World P σ R) : Bool × ℕ × Handle × ℕ :=
  (world.active, world.strong, world.handle, world.refs)

lemma counters_release (context : Context P σ) (world : World P σ R) :
    (world.release context).loseRef.counters =
      (world.active, world.strong - 1, world.handle, world.refs - 1) :=
  rfl

lemma counters_dropInner (context : Context P σ) (world : World P σ R) :
    (world.dropInner context).counters = (world.active, world.strong - 1, .gone, world.refs) :=
  rfl

lemma counters_finish (context : Context P σ) (world : World P σ R) (call : ℕ) (site : String)
    (body : Foreign P σ R) : (world.finish context call site body).counters = world.counters :=
  rfl

/-- Two actions that differ at most in what a callback body does. -/
inductive Action.SameCall : Action P σ R → Action P σ R → Prop
  | refl (action : Action P σ R) : SameCall action action
  | finish (call : ℕ) (body body' : Foreign P σ R) :
      SameCall (.finish call body) (.finish call body')

/-- What callback bodies and destructors do, panic or not, shows neither in the flag nor in the
count. -/
lemma counters_next (context context' : Context P σ) (world : World P σ R)
    {action action' : Action P σ R} (hsame : action.SameCall action') :
    (world.next context action).map World.counters =
      (world.next context' action').map World.counters := by
  rcases hsame with ⟨action⟩ | ⟨call, body, body'⟩
  · rcases action with _ | ⟨_ | _⟩ | ⟨_ | _⟩ | ⟨_ | _, site⟩ | call | call | ⟨call, body⟩ | _ | _ | _ <;>
      unfold World.next <;> dsimp only
    case release.raw =>
      split_ifs
      · rw [Option.map_some, Option.map_some, counters_release, counters_release]
      · rfl
    case finish =>
      split
      · rw [Option.map_some, Option.map_some, counters_finish, counters_finish]
      · rfl
    case dropInner =>
      split_ifs
      · rw [Option.map_some, Option.map_some, counters_dropInner, counters_dropInner]
      · rfl
  · unfold World.next
    dsimp only
    split
    · rw [Option.map_some, Option.map_some, counters_finish, counters_finish]
    · rfl

end Containment

/-- The lifetime of a context, in one state of a run. -/
structure Lifetime (world : World P σ R) : Prop where
  count : world.strong = (if world.handle = .gone then 0 else 1) + world.refs
  /-- The value is destroyed once, with the last reference. -/
  destroyed : world.log.countP Event.isDestroyed =
    if world.handle = .gone ∧ world.refs = 0 then 1 else 0
  /-- The value is destroyed outside callback bodies, and nothing uses it afterwards. -/
  timely : ∀ later event earlier, world.log = later ++ event :: earlier → Timely event earlier
  /-- A call whose load follows a store of the flag returns nothing and never begins its body. -/
  refused : ∀ later call active earlier, world.log = later ++ .loaded call active :: earlier →
    .stored ∈ earlier →
      .began call ∉ world.log ∧ ∀ answer, .answered call answer ∈ world.log ↔ answer = .returned none
  /-- The answer of a call is the result of its body. -/
  answer : ∀ call ending answer, .ended call ending ∈ world.log →
    .answered call answer ∈ world.log → answer = .returned ending.toOption
  contained : ∀ event ∈ world.log, event.Contained
  unaffected : ∀ (context context' : Context P σ) (action action' : Action P σ R),
    action.SameCall action' → (world.next context action).map World.counters =
      (world.next context' action').map World.counters

/-- A context in any run of its handle, of foreign code and of callbacks. -/
theorem context_lifetime {context : Context P σ} {user : σ} {world : World P σ R}
    (h : (contextSystem P σ R context user).Reachable world) : Lifetime world := by
  have hinv : (Owned world ∧ Traced world) ∧ Throughout Timely world.log ∧
      ∀ event ∈ world.log, event.Contained := by
    refine h.invariant (P := fun world => (Owned world ∧ Traced world) ∧
      Throughout Timely world.log ∧ ∀ event ∈ world.log, event.Contained) ?_ ?_
    · rintro world rfl
      exact ⟨⟨owned_new user, traced_new user⟩, trivial, fun _ hmem => absurd hmem List.not_mem_nil⟩
    · rintro world action world' ⟨⟨howned, htraced⟩, htimely, hcontained⟩ hnext
      have hstep := World.step_of_next hnext
      exact ⟨⟨howned.step hstep, htraced.step hstep⟩, timely_step howned htraced htimely hstep,
        contained_step hcontained hstep⟩
  rcases hinv with ⟨⟨howned, htraced⟩, htimely, hcontained⟩
  constructor
  case count => exact howned.count
  case destroyed =>
    rw [howned.destroyed, howned.count]
    split_ifs <;> simp_all
  case timely =>
    intro later event earlier hlog
    exact Throughout.of_split (hlog ▸ htimely)
  case refused =>
    intro later call active earlier hlog hstored
    have hactive := (Throughout.of_split (hlog ▸ htimely)).2 hstored
    have hloaded : Event.loaded call false ∈ world.log := by
      rw [hlog, ← hactive]
      exact List.mem_append_right later List.mem_cons_self
    exact (htraced.calls call).of_refused hloaded
  case answer => exact fun call _ _ => (htraced.calls call).of_ended
  case contained => exact hcontained
  case unaffected => exact fun context context' action action' => counters_next context context' world

/-- A callback that panics, a drop of the handle, a call that comes too late and a destructor that
panics in `RELEASE`. -/
theorem context_lifetime_panics :
    let context : Context ℕ Unit :=
      ⟨⟨fun _ => none, fun _ => none, fun _ _ => (.error 1, ()), fun _ _ => (.error 2, ())⟩,
        fun _ => (.error 3, ())⟩
    Lifetime ((System.replay (World.next context) (World.new () : World ℕ Unit ℕ)
      [.retainedPtr, .callWith .raw "event", .load 0, .start 0, .dropHandle,
        .finish 0 fun _ => (.error 4, ()), .callWith .raw "event", .load 1, .dropInner,
        .release .raw]).get (by decide +kernel)) :=
  context_lifetime (System.reachable_replay _)

end DoomFishUtils.CallbackContext

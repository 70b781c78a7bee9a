import DoomFishUtils.Library.History
import DoomFishUtils.Waker

/-!
# Registered wakers

A task registers its waker in an `AtomicWaker` and any thread may take and call what the cell
holds.  From its registration on, a waker is in the cell or has been called, and taking what the
cell holds settles which of the two.
-/

namespace DoomFishUtils

set_option autoImplicit false

open Library

/-- What an event of a history says about a cell. -/
inductive WakerNote (W : Type) where
  | registered (waker : W)
  | woke (waker : W)

section

variable {E W : Type} (note : E → Option (WakerNote W))

def IsRegistration (event : E) : Bool :=
  match note event with
  | some (.registered _) => true
  | _ => false

/-- A waker of the same task has been called since the latest registration. -/
def Called [TaskWaker W] (log : List E) (waker : W) : Prop :=
  ∃ event woken, note event = some (.woke woken) ∧ willWake woken waker = true ∧
    Since (IsRegistration note) log event

/-- The waker is in the cell, or has been called since it was registered. -/
def Armed [TaskWaker W] (cell : AtomicWaker W) (log : List E) (waker : W) : Prop :=
  (∃ stored, cell.waker = some stored ∧ willWake stored waker = true) ∨ Called note log waker

variable {note} [TaskWaker W] {cell : AtomicWaker W} {log : List E} {event : E} {waker : W}

lemma Called.cons (h : Called note log waker) (hevent : IsRegistration note event = false) :
    Called note (event :: log) waker := by
  rcases h with ⟨woke, woken, hnote, hwill, hsince⟩
  exact ⟨woke, woken, hnote, hwill, hsince.cons hevent⟩

lemma Armed.cons (h : Armed note cell log waker) (hevent : IsRegistration note event = false) :
    Armed note cell (event :: log) waker :=
  h.imp_right fun hcalled => hcalled.cons hevent

/-- Registering stores the waker, or keeps one that wakes the same task. -/
lemma armed_register (cell : AtomicWaker W) (log : List E) (waker : W) :
    Armed note (cell.register waker) log waker := by
  unfold AtomicWaker.register
  rcases hcell : cell.waker with _ | old
  · exact .inl ⟨waker, rfl, willWake_self waker⟩
  · dsimp only
    split_ifs with hold
    · exact .inl ⟨old, hcell, hold⟩
    · exact .inl ⟨waker, rfl, willWake_self waker⟩

/-- After a wake, whatever was registered has been called. -/
lemma Armed.take (h : Armed note cell log waker) {woke : W → E}
    (hwoke : ∀ woken, note (woke woken) = some (.woke woken)) :
    Called note (cell.take.1.toList.map woke ++ log) waker := by
  have hquiet : ∀ woken, IsRegistration note (woke woken) = false := by
    intro woken
    unfold IsRegistration
    rw [hwoke]
  rcases h with ⟨stored, hstored, hwill⟩ | hcalled
  · have htake : cell.take.1.toList.map woke ++ log = woke stored :: log := by
      rw [AtomicWaker.take, hstored]
      rfl
    rw [htake]
    exact ⟨_, stored, hwoke stored, hwill, since_cons_self (hquiet stored)⟩
  · rcases hwaker : cell.waker with _ | stored
    · simpa [AtomicWaker.take, hwaker] using hcalled
    · simpa [AtomicWaker.take, hwaker] using hcalled.cons (hquiet stored)

/-- A task that expects a call is armed, and until it is called what is owed to it holds. -/
structure Guarded (note : E → Option (WakerNote W)) (cell : AtomicWaker W) (log : List E)
    (expecting owed : W → Prop) : Prop where
  armed : ∀ waker, expecting waker → Armed note cell log waker
  owed : ∀ waker, expecting waker → ¬Called note log waker → owed waker

variable {expecting expecting' owed owed' : W → Prop}

lemma guarded_of_none (h : ∀ waker, ¬expecting waker) : Guarded note cell log expecting owed :=
  ⟨fun waker hexpecting => absurd hexpecting (h waker),
    fun waker hexpecting => absurd hexpecting (h waker)⟩

/-- A step that leaves the cell and the history alone. -/
lemma Guarded.mono (h : Guarded note cell log expecting owed)
    (hexpecting : ∀ waker, expecting' waker → expecting waker)
    (howed : ∀ waker, expecting' waker → owed waker → owed' waker) :
    Guarded note cell log expecting' owed' :=
  ⟨fun waker hnow => h.armed waker (hexpecting waker hnow),
    fun waker hnow hnot => howed waker hnow (h.owed waker (hexpecting waker hnow) hnot)⟩

/-- A step with an event that registers nothing. -/
lemma Guarded.cons (h : Guarded note cell log expecting owed)
    (hevent : IsRegistration note event = false)
    (hexpecting : ∀ waker, expecting' waker → expecting waker)
    (howed : ∀ waker, expecting' waker → owed waker → owed' waker) :
    Guarded note cell (event :: log) expecting' owed' := by
  refine ⟨fun waker hnow => (h.armed waker (hexpecting waker hnow)).cons hevent,
    fun waker hnow hnot => howed waker hnow (h.owed waker (hexpecting waker hnow) ?_)⟩
  exact fun hcalled => hnot (hcalled.cons hevent)

/-- Events that register nothing. -/
lemma Guarded.append (h : Guarded note cell log expecting owed) {events : List E}
    (hevents : ∀ event ∈ events, IsRegistration note event = false) :
    Guarded note cell (events ++ log) expecting owed := by
  induction events with
  | nil => exact h
  | cons head events ih =>
    exact (ih fun event hmem => hevents event (List.mem_cons_of_mem head hmem)).cons
      (hevents head List.mem_cons_self) (fun _ => id) fun _ _ => id

/-- A wake pays what is owed. -/
lemma Guarded.take (h : Guarded note cell log expecting owed) {woke : W → E}
    (hwoke : ∀ woken, note (woke woken) = some (.woke woken))
    (hexpecting : ∀ waker, expecting' waker → expecting waker) :
    Guarded note cell.take.2 (cell.take.1.toList.map woke ++ log) expecting' owed' := by
  have hcalled : ∀ waker, expecting' waker →
      Called note (cell.take.1.toList.map woke ++ log) waker :=
    fun waker hnow => (h.armed waker (hexpecting waker hnow)).take hwoke
  exact ⟨fun waker hnow => .inr (hcalled waker hnow),
    fun waker hnow hnot => absurd (hcalled waker hnow) hnot⟩

/-- A registration: only its own waker is expected to be called, and nothing is owed yet. -/
lemma guarded_register (cell : AtomicWaker W) (log : List E)
    (hexpecting : ∀ other, expecting other → other = waker)
    (howed : ∀ other, expecting other → owed other) :
    Guarded note (cell.register waker) log expecting owed := by
  refine ⟨fun other hnow => ?_, fun other hnow _ => howed other hnow⟩
  rw [hexpecting other hnow]
  exact armed_register cell log waker

end

end DoomFishUtils

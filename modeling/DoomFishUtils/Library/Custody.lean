import DoomFishUtils.Library.History
import Mathlib.Data.List.Nodup
import Mathlib.Data.List.Perm.Basic

/-!
# Custody of resources

Resources that are used, end and are released.  A phase starts with some resources, each at most
once, and says which of them are open after it, which have ended but are still held, and that the
others have been released.  Phases compose one after another, and beside resources that they leave
alone.
-/

namespace DoomFishUtils.Library

set_option autoImplicit false

/-- The resource that an event is about, whether that has ended with it, and whether the event
releases it or else uses it. -/
structure Custody (ι Ev : Type*) where
  subject : Ev → ι
  ends : Ev → Bool
  releases : Ev → Bool

namespace Custody

variable {ι Ev : Type*} (C : Custody ι Ev)

/-- The resources that a history, latest event first, releases. -/
def released (events : List Ev) : List ι :=
  (events.filter C.releases).map C.subject

/-- A resource that has not ended. -/
def Open (events : List Ev) (id : ι) : Prop :=
  ∀ event ∈ events, C.subject event = id → C.ends event = false

/-- No resource is used after its end. -/
def Orderly (events : List Ev) : Prop :=
  Throughout (fun event earlier => C.releases event = false → C.Open earlier (C.subject event))
    events

/-- Events that do nothing but release these resources. -/
structure Releases (events : List Ev) (gone : List ι) : Prop where
  releases : ∀ event ∈ events, C.releases event = true
  perm : (events.map C.subject).Perm gone

structure Phase (before : List ι) (events : List Ev) (kept spent : List ι) : Prop where
  nodup : before.Nodup
  frame : ∀ event ∈ events, C.subject event ∈ before
  perm : before.Perm (kept ++ spent ++ C.released events)
  orderly : C.Orderly events
  isOpen : ∀ id ∈ kept, C.Open events id

variable {C} {before kept kept' spent spent' other gone : List ι} {events events' : List Ev} {id : ι}

lemma released_append :
    C.released (events' ++ events) = C.released events' ++ C.released events := by
  unfold released
  rw [List.filter_append, List.map_append]

lemma Open.append (h' : C.Open events' id) (h : C.Open events id) :
    C.Open (events' ++ events) id := by
  intro event hmem
  rcases List.mem_append.mp hmem with hlater | hearlier
  · exact h' event hlater
  · exact h event hearlier

lemma orderly_singleton (event : Ev) : C.Orderly [event] := by
  refine ⟨fun _ earlier hmem => ?_, trivial⟩
  cases hmem

/-- Events about other resources. -/
lemma open_of_frame (hframe : ∀ event ∈ events, C.subject event ∈ before) (hid : id ∉ before) :
    C.Open events id := by
  intro event hmem hsubject
  exact absurd (hsubject ▸ hframe event hmem) hid

lemma Orderly.append (h' : C.Orderly events') (h : C.Orderly events)
    (hopen : ∀ event ∈ events', C.releases event = false → C.Open events (C.subject event)) :
    C.Orderly (events' ++ events) := by
  induction events' with
  | nil => exact h
  | cons event events' ih =>
    refine ⟨fun huse => (h'.1 huse).append (hopen event List.mem_cons_self huse), ?_⟩
    exact ih h'.2 fun other hmem => hopen other (List.mem_cons_of_mem event hmem)

lemma Releases.released (h : C.Releases events gone) : (C.released events).Perm gone := by
  unfold Custody.released
  rw [List.filter_eq_self.mpr h.releases]
  exact h.perm

lemma Releases.orderly (h : C.Releases events gone) : C.Orderly events := by
  have hreleases := h.releases
  clear h
  induction events with
  | nil => trivial
  | cons event events ih =>
    rw [List.forall_mem_cons] at hreleases
    refine ⟨fun huse => ?_, ih hreleases.2⟩
    rw [hreleases.1] at huse
    cases huse

lemma Releases.frame (h : C.Releases events gone) :
    ∀ event ∈ events, C.subject event ∈ gone :=
  fun _ hmem => h.perm.subset (List.mem_map_of_mem hmem)

lemma Releases.append {gone' : List ι} (h' : C.Releases events' gone')
    (h : C.Releases events gone) : C.Releases (events' ++ events) (gone' ++ gone) where
  releases event hmem := by
    rcases List.mem_append.mp hmem with hlater | hearlier
    · exact h'.releases event hlater
    · exact h.releases event hearlier
  perm := by
    rw [List.map_append]
    exact h'.perm.append h.perm

lemma Releases.perm_gone {gone' : List ι} (h : C.Releases events gone) (hperm : gone.Perm gone') :
    C.Releases events gone' :=
  ⟨h.releases, h.perm.trans hperm⟩

namespace Phase

lemma refl (h : before.Nodup) : C.Phase before [] before [] where
  nodup := h
  frame _ hmem := by cases hmem
  perm := by simp [released]
  orderly := trivial
  isOpen _ _ _ hmem := by cases hmem

lemma mem_before (h : C.Phase before events kept spent) (hid : id ∈ kept) : id ∈ before :=
  h.perm.symm.subset (List.mem_append_left _ (List.mem_append_left _ hid))

lemma nodup_kept (h : C.Phase before events kept spent) : kept.Nodup := by
  have hall := h.perm.nodup_iff.mp h.nodup
  exact (List.nodup_append.mp (List.nodup_append.mp hall).1).1

lemma disjoint (h : C.Phase before events kept spent) (hid : id ∈ kept) : id ∉ spent := by
  have hall := h.perm.nodup_iff.mp h.nodup
  intro hspent
  exact (List.nodup_append.mp (List.nodup_append.mp hall).1).2.2 id hid id hspent rfl

/-- The resources that are open, in another order. -/
lemma perm_kept (h : C.Phase before events kept spent) (hperm : kept.Perm kept') :
    C.Phase before events kept' spent where
  nodup := h.nodup
  frame := h.frame
  perm := h.perm.trans ((hperm.append_right spent).append_right _)
  orderly := h.orderly
  isOpen id hid := h.isOpen id (hperm.symm.subset hid)

/-- One phase after another. -/
lemma trans (h : C.Phase before events kept spent) (h' : C.Phase kept events' kept' spent') :
    C.Phase before (events' ++ events) kept' (spent' ++ spent) where
  nodup := h.nodup
  frame event hmem := by
    rcases List.mem_append.mp hmem with hlater | hearlier
    · exact h.mem_before (h'.frame event hlater)
    · exact h.frame event hearlier
  perm := by
    have hswap : (spent ++ C.released events').Perm (C.released events' ++ spent) :=
      List.perm_append_comm
    rw [released_append]
    calc
      before.Perm (kept ++ spent ++ C.released events) := h.perm
      List.Perm _ (kept' ++ spent' ++ C.released events' ++ spent ++ C.released events) :=
        (h'.perm.append_right spent).append_right _
      List.Perm _ (kept' ++ (spent' ++ spent) ++ (C.released events' ++ C.released events)) := by
        simpa using ((hswap.symm.append_right (C.released events)).append_left spent').append_left
          kept'
  orderly := h'.orderly.append h.orderly fun event hmem _ => h.isOpen _ (h'.frame event hmem)
  isOpen id hid := (h'.isOpen id hid).append (h.isOpen id (h'.mem_before hid))

/-- A phase with other resources after its own. -/
lemma beside (h : C.Phase before events kept spent) (hnodup : (before ++ other).Nodup) :
    C.Phase (before ++ other) events (kept ++ other) spent where
  nodup := hnodup
  frame event hmem := List.mem_append_left other (h.frame event hmem)
  perm := by
    have hswap : (spent ++ C.released events ++ other).Perm (other ++ (spent ++ C.released events)) :=
      List.perm_append_comm
    calc
      (before ++ other).Perm (kept ++ spent ++ C.released events ++ other) :=
        h.perm.append_right other
      List.Perm _ (kept ++ other ++ spent ++ C.released events) := by
        simpa using hswap.append_left kept
  orderly := h.orderly
  isOpen id hid := by
    rcases List.mem_append.mp hid with hkept | hother
    · exact h.isOpen id hkept
    · refine open_of_frame h.frame fun hbefore => ?_
      exact (List.nodup_append.mp hnodup).2.2 id hbefore id hother rfl

/-- A phase with other resources before its own. -/
lemma beside_left (h : C.Phase before events kept spent) (hnodup : (other ++ before).Nodup) :
    C.Phase (other ++ before) events (other ++ kept) spent := by
  have hswap : (other ++ before).Perm (before ++ other) := List.perm_append_comm
  have hphase := (h.beside (hswap.nodup_iff.mp hnodup)).perm_kept List.perm_append_comm
  exact ⟨hnodup, fun event hmem => hswap.symm.subset (hphase.frame event hmem),
    hswap.trans hphase.perm, hphase.orderly, hphase.isOpen⟩

/-- The release of what has ended. -/
lemma release (h : C.Phase before events kept spent) (hgone : C.Releases events' spent) :
    C.Phase before (events' ++ events) kept [] where
  nodup := h.nodup
  frame event hmem := by
    rcases List.mem_append.mp hmem with hlater | hearlier
    · exact h.perm.symm.subset
        (List.mem_append_left _ (List.mem_append_right _ (hgone.frame event hlater)))
    · exact h.frame event hearlier
  perm := by
    rw [released_append, List.append_nil, ← List.append_assoc]
    exact h.perm.trans ((hgone.released.symm.append_left kept).append_right _)
  orderly := hgone.orderly.append h.orderly fun event hmem huse => by
    rw [hgone.releases event hmem] at huse
    cases huse
  isOpen id hid := (open_of_frame hgone.frame (h.disjoint hid)).append (h.isOpen id hid)

end Phase

/-- The release of resources that are open. -/
lemma Releases.phase (h : C.Releases events before) (hnodup : before.Nodup) :
    C.Phase before events [] [] where
  nodup := hnodup
  frame := h.frame
  perm := h.released.symm
  orderly := h.orderly
  isOpen _ hid := by cases hid

end Custody

end DoomFishUtils.Library

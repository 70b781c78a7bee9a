import DoomFishUtils.Library.Outcome
import Mathlib.Data.List.Basic

/-!
# Fallible code with a trace

Code that returns or fails and says on its way what it does.  Each event carries the number of
nested calls that it stands in, also when the code fails inside of them.
-/

namespace DoomFishUtils.Library

set_option autoImplicit false

structure Traced (ε E α : Type) where
  outcome : Except ε α
  /-- The events in order, each under so many nested calls. -/
  events : List (ℕ × E)

namespace Traced

variable {ε E α β : Type}

def bind (x : Traced ε E α) (f : α → Traced ε E β) : Traced ε E β :=
  match x.outcome with
  | .ok a => ⟨(f a).outcome, x.events ++ (f a).events⟩
  | .error e => ⟨.error e, x.events⟩

instance : Monad (Traced ε E) where
  pure a := ⟨.ok a, []⟩
  bind := bind

/-- Code that does nothing worth an event. -/
def silent (x : Except ε α) : Traced ε E α :=
  ⟨x, []⟩

def emit (event : E) : Traced ε E Unit :=
  ⟨.ok (), [(0, event)]⟩

/-- A nested call. -/
def nested (event : E) (x : Traced ε E α) : Traced ε E α :=
  ⟨x.outcome, (1, event) :: x.events.map fun (level, event) => (level + 1, event)⟩

section Outcomes

@[simp] lemma outcome_pure (a : α) : (pure a : Traced ε E α).outcome = .ok a :=
  rfl

@[simp] lemma outcome_silent (x : Except ε α) : (silent x : Traced ε E α).outcome = x :=
  rfl

@[simp] lemma outcome_emit (event : E) : (emit event : Traced ε E Unit).outcome = .ok () :=
  rfl

@[simp] lemma outcome_nested (event : E) (x : Traced ε E α) :
    (nested event x).outcome = x.outcome :=
  rfl

@[simp] lemma outcome_bind (x : Traced ε E α) (f : α → Traced ε E β) :
    (x >>= f).outcome = x.outcome >>= fun a => (f a).outcome := by
  change (x.bind f).outcome = _
  unfold bind
  rcases x with ⟨e | a, events⟩ <;> rfl

@[simp] lemma outcome_ite {c : Prop} [Decidable c] (x y : Traced ε E α) :
    (if c then x else y).outcome = if c then x.outcome else y.outcome :=
  apply_ite outcome c x y

/-- A test is the same test on the outcomes. -/
lemma outcome_ite_eq {c : Prop} [Decidable c] {x x' : Traced ε E α} {y y' : Except ε α}
    (hpos : c → x.outcome = y) (hneg : ¬c → x'.outcome = y') :
    (if c then x else x').outcome = if c then y else y' := by
  rw [outcome_ite]
  split_ifs with h
  · exact hpos h
  · exact hneg h

/-- The trace of a sequence leaves the sequence of the outcomes. -/
lemma outcome_bind_eq {x : Traced ε E α} {f : α → Traced ε E β} {y : Except ε α}
    {g : α → Except ε β} (hx : x.outcome = y) (hf : ∀ a, (f a).outcome = g a) :
    (x >>= f).outcome = y >>= g := by
  rw [outcome_bind, hx]
  exact congrArg (y >>= ·) (funext hf)

end Outcomes

/-- Every event is as `P` says and stands under at most `bound` nested calls. -/
def Within (P : E → Prop) (bound : ℕ) (x : Traced ε E α) : Prop :=
  ∀ entry ∈ x.events, entry.1 ≤ bound ∧ P entry.2

/-- Code whose events are within bounds and whose result is as `post` says. -/
structure Safe (P : E → Prop) (bound : ℕ) (x : Traced ε E α) (post : α → Prop) : Prop where
  within : x.Within P bound
  result : ∀ a, x.outcome = .ok a → post a

section Rules

variable {P : E → Prop} {bound : ℕ} {x : Traced ε E α} {f : α → Traced ε E β} {Q : α → Prop}

lemma Safe.mono {weak : α → Prop} (h : x.Safe P bound Q) (himp : ∀ a, Q a → weak a) :
    x.Safe P bound weak :=
  ⟨h.within, fun a ha => himp a (h.result a ha)⟩

lemma safe_pure {a : α} (h : Q a) : (pure a : Traced ε E α).Safe P bound Q where
  within _ hmem := absurd hmem List.not_mem_nil
  result _ ha := Except.ok.inj ha ▸ h

lemma safe_silent {y : Except ε α} (h : ∀ a, y = .ok a → Q a) :
    (silent y : Traced ε E α).Safe P bound Q where
  within _ hmem := absurd hmem List.not_mem_nil
  result := h

lemma safe_emit {event : E} (h : P event) :
    (emit event : Traced ε E Unit).Safe P bound fun _ => True where
  within := List.forall_mem_singleton.mpr ⟨Nat.zero_le _, h⟩
  result _ _ := trivial

/-- The rule of sequences: the second part is looked at where the first has returned. -/
lemma Safe.bind {R : β → Prop} (hx : x.Safe P bound Q)
    (hf : ∀ a, Q a → (f a).Safe P bound R) : (x >>= f).Safe P bound R := by
  change (x.bind f).Safe P bound R
  unfold Traced.bind
  rcases x with ⟨e | a, events⟩
  · exact ⟨hx.within, fun _ ha => nomatch ha⟩
  · have hnext := hf a (hx.result a rfl)
    exact ⟨List.forall_mem_append.mpr ⟨hx.within, hnext.within⟩, hnext.result⟩

lemma safe_ite {c : Prop} [Decidable c] {y : Traced ε E α} (hpos : c → x.Safe P bound Q)
    (hneg : ¬c → y.Safe P bound Q) : (if c then x else y).Safe P bound Q := by
  split_ifs with h
  · exact hpos h
  · exact hneg h

/-- A nested call may go one level less deep. -/
lemma Safe.nested {event : E} (h : x.Safe P bound Q) (hevent : P event) :
    (nested event x).Safe P (bound + 1) Q := by
  refine ⟨List.forall_mem_cons.mpr ⟨⟨Nat.le_add_left 1 bound, hevent⟩, fun entry hmem => ?_⟩,
    h.result⟩
  rcases List.mem_map.mp hmem with ⟨inner, hinner, rfl⟩
  exact ⟨Nat.succ_le_succ (h.within inner hinner).1, (h.within inner hinner).2⟩

end Rules

end Traced

end DoomFishUtils.Library

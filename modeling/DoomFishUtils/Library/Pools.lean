import Mathlib.Data.List.Forall2
import Mathlib.Data.List.Perm.Basic

/-!
# Pools of live objects

Objects that are made, changed and dropped by their place in a list.  Pools that correspond
element by element still do after a change at one place, and what they hold is what one of them
holds and what the others hold.
-/

namespace DoomFishUtils.Library

set_option autoImplicit false

variable {A B : Type*} {R : A → B → Prop} {xs : List A} {ys : List B}

lemma forall₂_getElem? (h : List.Forall₂ R xs ys) (index : ℕ) :
    Option.Rel R xs[index]? ys[index]? := by
  induction h generalizing index with
  | nil => exact .none
  | cons hfirst _ ih =>
    cases index with
    | zero => exact .some hfirst
    | succ index => exact ih index

/-- What is done to two objects that correspond, where they are there. -/
lemma rel_map {C D : Type*} {S : C → D → Prop} {x : Option A} {y : Option B} {f : A → C} {g : B → D}
    (h : Option.Rel R x y) (hmap : ∀ a b, R a b → S (f a) (g b)) :
    Option.Rel S (x.map f) (y.map g) := by
  cases h with
  | none => exact .none
  | some hab => exact .some (hmap _ _ hab)

lemma forall₂_set (h : List.Forall₂ R xs ys) {x : A} {y : B} (hnew : R x y) (index : ℕ) :
    List.Forall₂ R (xs.set index x) (ys.set index y) := by
  induction h generalizing index with
  | nil => exact .nil
  | cons hfirst hrest ih =>
    cases index with
    | zero => exact .cons hnew hrest
    | succ index => exact .cons hfirst (ih index)

lemma forall₂_eraseIdx (h : List.Forall₂ R xs ys) (index : ℕ) :
    List.Forall₂ R (xs.eraseIdx index) (ys.eraseIdx index) := by
  induction h generalizing index with
  | nil => exact .nil
  | cons hfirst hrest ih =>
    cases index with
    | zero => exact hrest
    | succ index => exact .cons hfirst (ih index)

lemma perm_append_swap (first second third : List A) :
    (first ++ (second ++ third)).Perm (second ++ (first ++ third)) := by
  rw [← List.append_assoc, ← List.append_assoc]
  exact List.perm_append_comm.append_right third

variable {pool : List (List A)} {items : List A} {index : ℕ}

lemma flatten_perm_eraseIdx (h : pool[index]? = some items) :
    pool.flatten.Perm (items ++ (pool.eraseIdx index).flatten) := by
  rcases List.getElem?_eq_some_iff.mp h with ⟨hlt, hget⟩
  have hperm := (List.getElem_cons_eraseIdx_perm hlt).flatten
  rw [hget] at hperm
  exact hperm.symm

lemma flatten_set_perm (h : pool[index]? = some items) (new : List A) :
    (pool.set index new).flatten.Perm (new ++ (pool.eraseIdx index).flatten) := by
  rcases List.getElem?_eq_some_iff.mp h with ⟨hlt, -⟩
  exact (List.set_perm_cons_eraseIdx hlt new).flatten

end DoomFishUtils.Library

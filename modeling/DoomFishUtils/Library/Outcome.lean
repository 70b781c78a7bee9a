import Mathlib.Data.List.Forall2

/-!
# Outcomes of fallible code

`Yields allowed x post` says that `x` either returns a value satisfying `post` or fails in
one of the `allowed` ways.  The rules follow the shape of the code, so that a function's
specification is assembled from those of the functions it calls.
-/

namespace DoomFishUtils.Library

set_option autoImplicit false

variable {ε α β : Type}

/-- `x` returns a value satisfying `post` or fails in an allowed way. -/
def Yields (allowed : ε → Prop) (x : Except ε α) (post : α → Prop) : Prop :=
  match x with
  | .ok a => post a
  | .error e => allowed e

@[simp] lemma ok_bind (a : α) (f : α → Except ε β) : (Except.ok a >>= f) = f a :=
  rfl

variable {allowed : ε → Prop}

lemma Yields.mono {x : Except ε α} {weak strong : α → Prop} (h : Yields allowed x strong)
    (himp : ∀ a, strong a → weak a) : Yields allowed x weak := by
  cases x with
  | ok a => exact himp a h
  | error e => exact h

/-- The specification of a sequence: the second part starts from what the first returns. -/
lemma Yields.bind {x : Except ε α} {f : α → Except ε β} {mid : α → Prop} {post : β → Prop}
    (hx : Yields allowed x mid) (hf : ∀ a, mid a → Yields allowed (f a) post) :
    Yields allowed (x >>= f) post := by
  cases x with
  | ok a => exact hf a hx
  | error e => exact hx

/-- The specification of a test: each branch starts from what the test has told. -/
lemma Yields.ite {c : Prop} [Decidable c] {x y : Except ε α} {post : α → Prop}
    (hpos : c → Yields allowed x post) (hneg : ¬c → Yields allowed y post) :
    Yields allowed (if c then x else y) post := by
  by_cases h : c
  · rw [if_pos h]
    exact hpos h
  · rw [if_neg h]
    exact hneg h

lemma Yields.of_eq_ok {x : Except ε α} {a : α} {post : α → Prop} (h : Yields allowed x post)
    (heq : x = .ok a) : post a := by
  rw [heq] at h
  exact h

/-! ### Traversals -/

section Traversals

variable {f : α → Except ε β}

/-- A traversal returns the results in order. -/
lemma mapM_eq_ok {xs : List α} {ys : List β} :
    xs.mapM f = .ok ys ↔ List.Forall₂ (fun x y => f x = .ok y) xs ys := by
  induction xs generalizing ys with
  | nil => simp [pure, Except.pure, eq_comm]
  | cons x xs ih =>
    rw [List.mapM_cons, List.forall₂_cons_left_iff]
    rcases hx : f x with error | y
    · simp [bind, Except.bind]
    · rw [ok_bind]
      rcases hxs : xs.mapM f with error | rest
      · refine ⟨(fun h => nomatch h), ?_⟩
        rintro ⟨y', ys', -, htail, rfl⟩
        cases hxs.symm.trans (ih.mpr htail)
      · rw [ok_bind]
        refine ⟨fun h => ?_, ?_⟩
        · cases h
          exact ⟨y, rest, rfl, ih.mp hxs, rfl⟩
        · rintro ⟨y', ys', hy, htail, rfl⟩
          cases hy
          cases hxs.symm.trans (ih.mpr htail)
          rfl

/-- A traversal fails as its first failing element does. -/
lemma mapM_eq_error {xs : List α} {error : ε} :
    xs.mapM f = .error error ↔ ∃ before bad after, xs = before ++ bad :: after ∧
      (∀ x ∈ before, ∃ y, f x = .ok y) ∧ f bad = .error error := by
  induction xs with
  | nil => simp [pure, Except.pure]
  | cons x xs ih =>
    rw [List.mapM_cons]
    rcases hx : f x with error' | y
    · change Except.error error' = .error error ↔ _
      rw [Except.error.injEq]
      refine ⟨fun h => ⟨[], x, xs, rfl, by simp, h ▸ hx⟩, ?_⟩
      rintro ⟨_ | ⟨head, before⟩, bad, after, hsplit, hbefore, hbad⟩ <;> cases hsplit
      · exact Except.error.inj (hx.symm.trans hbad)
      · rcases hbefore _ List.mem_cons_self with ⟨y, hy⟩
        cases hx.symm.trans hy
    · rw [ok_bind]
      have hrest : (do let rest ← xs.mapM f; pure (y :: rest)) = Except.error error ↔
          xs.mapM f = .error error := by
        rcases xs.mapM f with error' | rest <;> simp [bind, Except.bind, pure, Except.pure]
      rw [hrest, ih]
      constructor
      · rintro ⟨before, bad, after, rfl, hbefore, hbad⟩
        exact ⟨x :: before, bad, after, rfl, List.forall_mem_cons.mpr ⟨⟨y, hx⟩, hbefore⟩, hbad⟩
      · rintro ⟨_ | ⟨head, before⟩, bad, after, hsplit, hbefore, hbad⟩ <;> cases hsplit
        · cases hx.symm.trans hbad
        · exact ⟨before, bad, after, rfl, (List.forall_mem_cons.mp hbefore).2, hbad⟩

end Traversals

end DoomFishUtils.Library

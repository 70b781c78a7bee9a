import Mathlib.Data.Nat.ModEq
import Mathlib.Order.Monotone.Basic

/-!
# Lap cursors

A ring of `cap` slots is walked by a cursor that counts in steps of two inside a lap and
starts every lap at a multiple of `lap`. `lapCursor cap lap v` is the `v`th value of such
a cursor; the odd number after it marks the slot as filled. Nothing here depends on what
the slots hold.
-/

namespace DoomFishUtils.Library

/-- The `v`th cursor value on a ring of `cap` slots whose laps are `lap` apart. -/
def lapCursor (cap lap v : ℕ) : ℕ :=
  lap * (v / cap) + 2 * (v % cap)

section

variable {cap lap : ℕ}

@[simp] lemma lapCursor_zero : lapCursor cap lap 0 = 0 := by
  simp [lapCursor]

lemma lapCursor_add_cap (hcap : 0 < cap) (v : ℕ) :
    lapCursor cap lap (v + cap) = lapCursor cap lap v + lap := by
  simp only [lapCursor, Nat.add_div_right v hcap, Nat.add_mod_right, Nat.mul_succ]
  omega

lemma lapCursor_mod (hcap : 0 < cap) (hlap : 2 * cap ≤ lap) (v : ℕ) :
    lapCursor cap lap v % lap = 2 * (v % cap) := by
  have hlt : v % cap < cap := Nat.mod_lt v hcap
  rw [lapCursor, Nat.mul_add_mod, Nat.mod_eq_of_lt (by omega)]

lemma succ_mod_div {v : ℕ} (hcap : 0 < cap) :
    (v % cap + 1 = cap ∧ (v + 1) / cap = v / cap + 1 ∧ (v + 1) % cap = 0) ∨
      (v % cap + 1 < cap ∧ (v + 1) / cap = v / cap ∧ (v + 1) % cap = v % cap + 1) := by
  have hlt : v % cap < cap := Nat.mod_lt v hcap
  have hv : cap * (v / cap) + v % cap = v := Nat.div_add_mod v cap
  by_cases hlast : v % cap + 1 = cap
  · have he : v + 1 = cap * (v / cap + 1) := by rw [Nat.mul_add]; omega
    refine .inl ⟨hlast, ?_, ?_⟩
    · rw [he, Nat.mul_div_cancel_left _ hcap]
    · rw [he, Nat.mul_mod_right]
  · have hlt' : v % cap + 1 < cap := by omega
    have he : v + 1 = cap * (v / cap) + (v % cap + 1) := by omega
    refine .inr ⟨hlt', ?_, ?_⟩
    · rw [he, Nat.mul_add_div hcap, Nat.div_eq_of_lt hlt', Nat.add_zero]
    · rw [he, Nat.mul_add_mod, Nat.mod_eq_of_lt hlt']

lemma lapCursor_succ (hcap : 0 < cap) (v : ℕ) :
    lapCursor cap lap (v + 1) =
      if v % cap + 1 = cap then lap * (v / cap) + lap else lapCursor cap lap v + 2 := by
  rcases succ_mod_div (v := v) hcap with ⟨hlast, hdiv, hmod⟩ | ⟨hlt, hdiv, hmod⟩
  · rw [if_pos hlast, lapCursor, hdiv, hmod, Nat.mul_add]
    omega
  · rw [if_neg (by omega), lapCursor, lapCursor, hdiv, hmod]
    omega

/-- A cursor moves by at least two, so the odd numbers between mark filled slots. -/
lemma lapCursor_add_two_le_succ (hcap : 0 < cap) (hlap : 2 * cap ≤ lap) (v : ℕ) :
    lapCursor cap lap v + 2 ≤ lapCursor cap lap (v + 1) := by
  rw [lapCursor_succ hcap]
  split
  · rw [lapCursor]
    omega
  · exact le_rfl

lemma lapCursor_strictMono (hcap : 0 < cap) (hlap : 2 * cap ≤ lap) :
    StrictMono (lapCursor cap lap) := by
  apply strictMono_nat_of_lt_succ
  intro v
  have := lapCursor_add_two_le_succ hcap hlap v
  omega

lemma lapCursor_inj (hcap : 0 < cap) (hlap : 2 * cap ≤ lap) {v u : ℕ} :
    lapCursor cap lap v = lapCursor cap lap u ↔ v = u :=
  (lapCursor_strictMono hcap hlap).injective.eq_iff

lemma lapCursor_le_iff (hcap : 0 < cap) (hlap : 2 * cap ≤ lap) {v u : ℕ} :
    lapCursor cap lap v ≤ lapCursor cap lap u ↔ v ≤ u :=
  (lapCursor_strictMono hcap hlap).le_iff_le

lemma lapCursor_add_one_le_iff (hcap : 0 < cap) (hlap : 2 * cap ≤ lap) {v u : ℕ} :
    lapCursor cap lap v + 1 ≤ lapCursor cap lap u ↔ v < u := by
  rw [Nat.add_one_le_iff, (lapCursor_strictMono hcap hlap).lt_iff_lt]

/-- A filled mark is at or above a cursor value exactly when its number is. -/
lemma lapCursor_le_add_one_iff (hcap : 0 < cap) (hlap : 2 * cap ≤ lap) {v u : ℕ} :
    lapCursor cap lap v ≤ lapCursor cap lap u + 1 ↔ v ≤ u := by
  constructor
  · intro h
    by_contra hlt
    have h1 := lapCursor_add_two_le_succ hcap hlap u
    have h2 := (lapCursor_strictMono hcap hlap).monotone (show u + 1 ≤ v by omega)
    omega
  · intro h
    have := (lapCursor_strictMono hcap hlap).monotone h
    omega

lemma lap_le_lapCursor_iff (hcap : 0 < cap) (hlap : 2 * cap ≤ lap) {v : ℕ} :
    lap ≤ lapCursor cap lap v ↔ cap ≤ v := by
  have hc : lapCursor cap lap cap = lap := by
    have h := (lapCursor_add_cap hcap 0 : lapCursor cap lap (0 + cap) = _)
    simpa using h
  calc lap ≤ lapCursor cap lap v ↔ lapCursor cap lap cap ≤ lapCursor cap lap v := by rw [hc]
    _ ↔ cap ≤ v := lapCursor_le_iff hcap hlap

end

/-- Two numbers of the same slot within one window of `cap` numbers are equal. -/
lemma eq_of_mod_eq_of_window {cap v u : ℕ} (base : ℕ) (h : v % cap = u % cap)
    (hv : base ≤ v) (hv' : v < base + cap) (hu : base ≤ u) (hu' : u < base + cap) : v = u := by
  have key : ∀ a b : ℕ, a % cap = b % cap → a ≤ b → b < a + cap → a = b := by
    intro a b hab hle hlt
    have hd : cap ∣ b - a := (Nat.modEq_iff_dvd' hle).mp hab
    have hz : b - a = 0 := Nat.eq_zero_of_dvd_of_lt hd (by omega)
    omega
  rcases Nat.le_total v u with hle | hle
  · exact key v u h hle (by omega)
  · exact (key u v h.symm hle (by omega)).symm

/-- A later number of the same slot is at least one lap later. -/
lemma add_le_of_mod_eq_of_lt {cap v u : ℕ} (h : v % cap = u % cap) (hlt : v < u) :
    v + cap ≤ u := by
  by_contra hc
  have := eq_of_mod_eq_of_window v h le_rfl (by omega) hlt.le (by omega)
  omega

end DoomFishUtils.Library

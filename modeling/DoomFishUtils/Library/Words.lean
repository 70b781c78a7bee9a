import Mathlib.Data.Nat.ModEq

/-!
# Counters in machine words

A counter that is kept in a 64-bit word is known modulo `2 ^ 64`.  Counters less than `2 ^ 64`
apart are told apart by their words, and masks of the low bits read off remainders by powers of
two.
-/

namespace DoomFishUtils.Library

set_option autoImplicit false

/-- The bits below a power of two. -/
abbrev lowMask (size : UInt64) : UInt64 :=
  size - 1

variable {a b k : ℕ}

lemma ofNat_eq_ofNat_iff : UInt64.ofNat a = UInt64.ofNat b ↔ a % 2 ^ 64 = b % 2 ^ 64 := by
  rw [← UInt64.toNat_inj, UInt64.toNat_ofNat', UInt64.toNat_ofNat']

lemma ofNat_ne_ofNat_of_lt (hlt : a < b) (hnear : b < a + 2 ^ 64) :
    UInt64.ofNat a ≠ UInt64.ofNat b := by
  rw [Ne, ofNat_eq_ofNat_iff]
  omega

/-- Near counters are equal where their words are. -/
lemma ofNat_eq_ofNat_iff_of_near (hab : a < b + 2 ^ 64) (hba : b < a + 2 ^ 64) :
    UInt64.ofNat a = UInt64.ofNat b ↔ a = b := by
  rw [ofNat_eq_ofNat_iff]
  omega

lemma toNat_lowMask (hk : k < 64) : (lowMask (UInt64.ofNat (2 ^ k))).toNat = 2 ^ k - 1 := by
  have hpos := Nat.two_pow_pos k
  have hlt : 2 ^ k < 2 ^ 64 := Nat.pow_lt_pow_right (by decide) hk
  have hone : (1 : UInt64) ≤ UInt64.ofNat (2 ^ k) := by
    rw [UInt64.le_iff_toNat_le, UInt64.toNat_ofNat', Nat.mod_eq_of_lt hlt]
    exact hpos
  rw [lowMask, UInt64.toNat_sub_of_le _ _ hone, UInt64.toNat_ofNat', Nat.mod_eq_of_lt hlt]
  rfl

lemma toNat_and_lowMask (hk : k < 64) :
    (UInt64.ofNat a &&& lowMask (UInt64.ofNat (2 ^ k))).toNat = a % 2 ^ k := by
  rw [UInt64.toNat_and, toNat_lowMask hk, Nat.and_two_pow_sub_one_eq_mod, UInt64.toNat_ofNat',
    Nat.mod_mod_of_dvd _ (Nat.pow_dvd_pow 2 hk.le)]

lemma and_add_and_not (x mask : UInt64) : (x &&& mask) + (x &&& ~~~mask) = x := by
  rw [← UInt64.toBitVec_inj, UInt64.toBitVec_add, UInt64.toBitVec_and, UInt64.toBitVec_and,
    UInt64.toBitVec_not, BitVec.add_eq_or_of_and_eq_zero]
  · ext i hi
    simp only [BitVec.getElem_or, BitVec.getElem_and, BitVec.getElem_not]
    cases x.toBitVec[i] <;> simp
  · ext i hi
    simp only [BitVec.getElem_and, BitVec.getElem_not]
    cases x.toBitVec[i] <;> simp

/-- Clearing the low bits goes back to a multiple of the power of two. -/
lemma and_not_lowMask (hk : k < 64) :
    UInt64.ofNat a &&& ~~~(lowMask (UInt64.ofNat (2 ^ k))) = UInt64.ofNat (a - a % 2 ^ k) := by
  have hlow : UInt64.ofNat a &&& lowMask (UInt64.ofNat (2 ^ k)) = UInt64.ofNat (a % 2 ^ k) := by
    have hlt : a % 2 ^ k < 2 ^ 64 :=
      (Nat.mod_lt a (Nat.two_pow_pos k)).trans (Nat.pow_lt_pow_right (by decide) hk)
    rw [← UInt64.toNat_inj, toNat_and_lowMask hk, UInt64.toNat_ofNat', Nat.mod_eq_of_lt hlt]
  have hsum := and_add_and_not (UInt64.ofNat a) (lowMask (UInt64.ofNat (2 ^ k)))
  have hwhole : UInt64.ofNat (a % 2 ^ k) + UInt64.ofNat (a - a % 2 ^ k) = UInt64.ofNat a := by
    rw [← UInt64.ofNat_add, Nat.add_sub_cancel' (Nat.mod_le a _)]
  rw [hlow] at hsum
  exact (UInt64.add_right_inj _).mp (hsum.trans hwhole.symm)

end DoomFishUtils.Library

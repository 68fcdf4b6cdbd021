import Mathlib.Data.Nat.Bitwise
import Mathlib.Data.Nat.Notation

/-! # Masks of low bits

Words rounded to multiples of a power of two by clearing the bits of a mask. -/
namespace WordMask

variable {w : ℕ}

def lowMask (w k : ℕ) : BitVec w := BitVec.ofNat w (2 ^ k - 1)

theorem clear_add_keep (x m : BitVec w) : (x &&& ~~~m).toNat + (x &&& m).toNat = x.toNat := by
  have hor : (x &&& ~~~m) ||| (x &&& m) = x := by
    rw [← BitVec.and_or_distrib_left, BitVec.not_or_self, BitVec.and_allOnes]
  have hdisjoint : (x &&& ~~~m) &&& (x &&& m) = 0#w := by
    have hswap : (x &&& ~~~m) &&& (x &&& m) = (x &&& x) &&& (~~~m &&& m) := by
      ac_rfl
    rw [hswap, BitVec.not_and_self]
    exact BitVec.and_zero
  rw [← BitVec.toNat_add_of_and_eq_zero hdisjoint, BitVec.add_eq_or_of_and_eq_zero _ _ hdisjoint,
    hor]

theorem getLsbD_lowMask {k i : ℕ} (hi : i < w) : (lowMask w k).getLsbD i = decide (i < k) := by
  rw [lowMask, BitVec.getLsbD_ofNat, Nat.testBit_two_pow_sub_one, decide_eq_true hi,
    Bool.true_and]

theorem toNat_lowMask {k : ℕ} (hk : k ≤ w) : (lowMask w k).toNat = 2 ^ k - 1 := by
  have hpos := Nat.two_pow_pos k
  have hle := Nat.pow_le_pow_right (n := 2) (by decide) hk
  rw [lowMask, BitVec.toNat_ofNat, Nat.mod_eq_of_lt]
  omega

theorem toNat_clear {k : ℕ} (hk : k ≤ w) (x : BitVec w) :
    (x &&& ~~~lowMask w k).toNat = x.toNat - x.toNat % 2 ^ k := by
  have hkeep : (x &&& lowMask w k).toNat = x.toNat % 2 ^ k := by
    rw [BitVec.toNat_and, toNat_lowMask hk, Nat.and_two_pow_sub_one_eq_mod]
  have hsum := clear_add_keep x (lowMask w k)
  omega

structure RoundedUp (k x r : ℕ) : Prop where
  le : x ≤ r
  lt : r < x + 2 ^ k
  mod : r % 2 ^ k = 0

theorem roundedUp {k : ℕ} (hk : k ≤ w) {x : BitVec w}
    (hfits : x.toNat + (2 ^ k - 1) < 2 ^ w) :
    RoundedUp k x.toNat ((x + lowMask w k) &&& ~~~lowMask w k).toNat := by
  have hpos := Nat.two_pow_pos k
  have hsum : (x + lowMask w k).toNat = x.toNat + (2 ^ k - 1) := by
    rw [BitVec.toNat_add, toNat_lowMask hk, Nat.mod_eq_of_lt hfits]
  have hlt := Nat.mod_lt (x.toNat + (2 ^ k - 1)) hpos
  have hle := Nat.mod_le (x.toNat + (2 ^ k - 1)) (2 ^ k)
  rw [toNat_clear hk, hsum]
  refine ⟨by omega, by omega, ?_⟩
  exact Nat.sub_mod_eq_zero_of_mod_eq (Nat.mod_mod _ _).symm

theorem signExtend_not_lowMask {v k : ℕ} (hv : 0 < v) (hvw : v ≤ w) :
    (~~~(lowMask w k).setWidth v).signExtend w = if k < v then ~~~lowMask w k else 0#w := by
  have hnarrow : ∀ i < v, (~~~(lowMask w k).setWidth v).getLsbD i = !decide (i < k) := by
    intro i hi
    rw [BitVec.getLsbD_not, BitVec.getLsbD_setWidth, decide_eq_true hi, Bool.true_and,
      Bool.true_and, getLsbD_lowMask (Nat.lt_of_lt_of_le hi hvw)]
  have hmsb : (~~~(lowMask w k).setWidth v).msb = !decide (v - 1 < k) := by
    rw [BitVec.msb_eq_getLsbD_last]
    exact hnarrow (v - 1) (by omega)
  apply BitVec.eq_of_getLsbD_eq
  intro i hi
  rw [BitVec.getLsbD_signExtend, decide_eq_true hi, Bool.true_and, hmsb]
  split
  · next hiv =>
    rw [hnarrow i hiv]
    split
    · rw [BitVec.getLsbD_not, getLsbD_lowMask hi, decide_eq_true hi, Bool.true_and]
    · next hk =>
      have hlt : i < k := by omega
      rw [BitVec.getLsbD_zero, decide_eq_true hlt, Bool.not_true]
  · split
    · next hiv hk =>
      have hlast : ¬v - 1 < k := by omega
      have hout : ¬i < k := by omega
      rw [BitVec.getLsbD_not, getLsbD_lowMask hi, decide_eq_true hi, decide_eq_false hlast,
        decide_eq_false hout]
      rfl
    · next hiv hk =>
      have hlast : v - 1 < k := by omega
      rw [BitVec.getLsbD_zero, decide_eq_true hlast, Bool.not_true]

theorem and_bit_ne_zero {x m : BitVec w} {n : ℕ} (hn : n < w)
    (hm : ∀ k < w, m.getLsbD k = decide (k = n)) : x &&& m ≠ 0 ↔ x.getLsbD n = true := by
  constructor
  · intro hne
    by_contra hbit
    apply hne
    apply BitVec.eq_of_getLsbD_eq
    intro k hk
    rw [BitVec.getLsbD_and, hm k hk]
    by_cases h : k = n <;> simp_all
  · intro hbit hz
    have := congrArg (BitVec.getLsbD · n) hz
    simp [hm n hn, hbit] at this

end WordMask

import LibSystemCall.MergeSort
import Mathlib.Algebra.Order.Ring.Nat
import Mathlib.Tactic.Ring

/-! # The searches of z_mergesort

All three searches find the same place: the end of the stretch of elements that go before
`q`. Positions are counted in elements from the first one of the list. -/
namespace MergeSort

/-- Of the `k` elements from `b` on, the first `c` go before `q` and the others do not. -/
def Cut (size : ℕ) (before : ℕ → Bool) (b k c : ℕ) : Prop :=
  ∀ j < k, before (b + j * size) = decide (j < c)

variable {size b n c : ℕ} {before : ℕ → Bool}

theorem place_le {j k : ℕ} (hsize : 0 < size) : b + j * size ≤ b + k * size ↔ j ≤ k := by
  rw [Nat.add_le_add_iff_left]
  exact Nat.mul_le_mul_right_iff hsize

theorem place_lt {j k : ℕ} (hsize : 0 < size) : b + j * size < b + k * size ↔ j < k := by
  rw [Nat.add_lt_add_iff_left]
  exact Nat.mul_lt_mul_right hsize

theorem place_add (j i : ℕ) : b + j * size + i * size = b + (j + i) * size := by
  rw [Nat.add_mul, Nat.add_assoc]

theorem place_next (j : ℕ) : b + j * size + size = b + (j + 1) * size := by
  rw [Nat.succ_mul, Nat.add_assoc]

theorem place_sub {j k : ℕ} : b + k * size - (b + j * size) = (k - j) * size := by
  rw [Nat.sub_mul]
  omega

theorem place_last {k : ℕ} (hk : 0 < k) : b + k * size - size = b + (k - 1) * size := by
  obtain ⟨k, rfl⟩ := Nat.exists_eq_add_of_le' hk
  rw [Nat.succ_mul, Nat.add_sub_cancel]
  omega

theorem rounds_le {j k : ℕ} (hsize : 0 < size) :
    k - j ≤ b + k * size - (b + j * size) := by
  rw [place_sub]
  exact Nat.le_mul_of_pos_right _ hsize

theorem binary_eq (hsize : 0 < size) (hcut : Cut size before b n c) {fuel j k : ℕ}
    (hj : j < c) (hk : c ≤ k) (hn : k ≤ n) (hfuel : k - j ≤ fuel) :
    binary size before fuel (b + j * size) (b + k * size) = some (b + c * size) := by
  induction fuel generalizing j k with
  | zero => omega
  | succ fuel ih =>
    rw [binary, place_next, place_sub, Nat.mul_div_cancel _ hsize, Nat.shiftRight_eq_div_pow]
    simp only [gt_iff_lt, place_lt hsize, Nat.pow_one, place_add]
    by_cases hmore : j + 1 < k
    · have hhalf : 1 ≤ (k - j) / 2 := by omega
      rw [if_pos hmore, hcut _ (by omega)]
      by_cases hside : j + (k - j) / 2 < c
      · simp only [hside, decide_true, not_true, if_false]
        exact ih hside hk hn (by omega)
      · simp only [hside, decide_false, Bool.false_eq_true, not_false_iff, if_true]
        exact ih hj (by omega) (by omega) (by omega)
    · rw [if_neg hmore]
      congr 3
      omega

theorem fastcase_eq (hsize : 0 < size) (hcut : Cut size before b n c) {fuel e j : ℕ}
    (hj : j < c) (hk : c ≤ j + 2 ^ e) (hn : j + 2 ^ e ≤ n) (hfuel : e < fuel) :
    fastcase size before fuel (2 ^ e * size) (b + j * size) (b + (j + 2 ^ e) * size) =
      some (b + c * size) := by
  induction fuel generalizing e j with
  | zero => omega
  | succ fuel ih =>
    rw [fastcase]
    cases e with
    | zero =>
      rw [if_neg (by simp)]
      congr 3
      simp only [Nat.pow_zero] at hk
      rw [Nat.pow_zero]
      omega
    | succ e =>
      have hpow : 2 ^ (e + 1) = 2 * 2 ^ e := Nat.pow_succ'
      have hpos : 0 < 2 ^ e := Nat.two_pow_pos e
      have hmore : 2 ^ (e + 1) * size > size := by
        have : 1 * size < 2 ^ (e + 1) * size := Nat.mul_lt_mul_of_pos_right (by omega) hsize
        omega
      have hhalf : (2 ^ (e + 1) * size) >>> 1 = 2 ^ e * size := by
        rw [Nat.shiftRight_eq_div_pow, hpow, Nat.mul_assoc, Nat.pow_one,
          Nat.mul_div_cancel_left _ (by decide)]
      rw [if_pos hmore, hhalf]
      simp only [place_add]
      rw [hcut _ (by omega)]
      by_cases hside : j + 2 ^ e < c
      · simp only [hside, decide_true, not_true, if_false]
        have hend : j + 2 ^ (e + 1) = j + 2 ^ e + 2 ^ e := by omega
        rw [hend]
        exact ih hside (by omega) (by omega) (by omega)
      · simp only [hside, decide_false, Bool.false_eq_true, not_false_iff, if_true]
        exact ih hj (by omega) (by omega) (by omega)

theorem exponential_eq (hsize : 0 < size) (hcut : Cut size before b n c) {fuel e j : ℕ}
    (hj : j < c) (hn : c ≤ n) (hfuel : n - j < fuel) :
    ∃ big, exponential size before fuel (2 ^ e * size) (b + j * size) (b + n * size) =
      some (b + c * size, big) := by
  induction fuel generalizing e j with
  | zero => omega
  | succ fuel ih =>
    have hpos : 0 < 2 ^ e := Nat.two_pow_pos e
    have hbytes : n - j ≤ b + n * size - (b + j * size) := rounds_le hsize
    rw [exponential]
    simp only [place_add, ge_iff_le, gt_iff_lt, place_le hsize, place_lt hsize,
      place_last (show 0 < n by omega)]
    by_cases hend : n ≤ j + 2 ^ e
    · rw [if_pos hend, hcut _ (by omega)]
      refine ⟨true, ?_⟩
      by_cases hlast : j < n - 1 ∧ ¬ n - 1 < c
      · rw [if_pos (by simpa using hlast),
          binary_eq hsize hcut hj (by omega) (by omega) (by omega)]
        rfl
      · rw [if_neg (by simpa using hlast),
          binary_eq hsize hcut (by omega) hn le_rfl (by omega)]
        rfl
    · rw [if_neg hend, hcut _ (by omega)]
      by_cases hside : j + 2 ^ e < c
      · have hdouble : (2 ^ e * size) <<< 1 = 2 ^ (e + 1) * size := by
          rw [Nat.shiftLeft_eq, Nat.pow_succ]
          ring
        simp only [hside, decide_true, not_true, if_false, hdouble]
        exact ih hside (by omega)
      · simp only [hside, decide_false, Bool.false_eq_true, not_false_iff, if_true]
        have hrounds : e < 2 ^ e * size + 1 := by
          have := Nat.lt_two_pow_self (n := e)
          have := Nat.le_mul_of_pos_right (2 ^ e) hsize
          omega
        rw [fastcase_eq hsize hcut hj (by omega) (by omega) hrounds]
        exact ⟨_, rfl⟩

theorem exponential_start (hsize : 0 < size) (hcut : Cut size before b n c) {fuel j : ℕ}
    (hj : j < c) (hn : c ≤ n) (hfuel : n - j < fuel) :
    ∃ big, exponential size before fuel size (b + j * size) (b + n * size) =
      some (b + c * size, big) := by
  have h := exponential_eq hsize hcut (e := 0) hj hn hfuel
  rwa [Nat.pow_zero, Nat.one_mul] at h

theorem linear_eq (hsize : 0 < size) (hcut : Cut size before b n c) {fuel i j : ℕ}
    (hj : j < c) (hn : c ≤ n) (hfuel : n - j ≤ fuel) :
    ∃ big, linear size before fuel i (b + j * size) (b + n * size) =
      some (b + c * size, big) := by
  induction fuel generalizing i j with
  | zero => omega
  | succ fuel ih =>
    have hbytes : n - (j + 1) ≤ b + n * size - (b + (j + 1) * size) := rounds_le hsize
    rw [linear, place_next]
    simp only [place_lt hsize]
    by_cases hon : j + 1 < n ∧ j + 1 < c
    · rw [if_pos ⟨hon.1, by rw [hcut _ hon.1]; simpa using hon.2⟩]
      split
      · exact exponential_start hsize hcut hon.2 hn (by omega)
      · exact ih hon.2 (by omega)
    · rw [if_neg fun h => hon ⟨h.1, by simpa [hcut _ h.1] using h.2⟩]
      refine ⟨false, ?_⟩
      congr 4
      omega

/-- Stepping and leaping find the same end of the stretch. -/
theorem search_eq (hsize : 0 < size) (hcut : Cut size before b n c) (hpos : 0 < c) (hn : c ≤ n)
    (i : ℕ) (big : Bool) :
    ∃ big', search size before i big b (b + n * size) = some (b + c * size, big') := by
  have hbytes : n ≤ n * size := Nat.le_mul_of_pos_right n hsize
  have hrounds : n - 0 < b + n * size - b + 1 := by omega
  unfold search
  split
  · have h := linear_eq hsize hcut (i := i) hpos hn hrounds.le
    rwa [Nat.zero_mul, Nat.add_zero] at h
  · have h := exponential_start hsize hcut hpos hn hrounds
    rwa [Nat.zero_mul, Nat.add_zero] at h

end MergeSort

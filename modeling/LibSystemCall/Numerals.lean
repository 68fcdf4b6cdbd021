import Mathlib.Data.Nat.Digits.Lemmas

/-! # Numerals in a base

The digits of a number, the most significant one first. -/
namespace Numerals

/-- No leading zero, and a single digit for zero. -/
def numeral (b n : ℕ) : List ℕ := if n = 0 then [0] else (Nat.digits b n).reverse

def places (b n : ℕ) : ℕ → List ℕ
  | 0 => []
  | k + 1 => n / b ^ k % b :: places b n k

def value (b : ℕ) (ds : List ℕ) : ℕ := ds.foldl (fun v d => v * b + d) 0

variable {b n : ℕ}

theorem numeral_of_lt (h : n < b) : numeral b n = [n] := by
  unfold numeral
  split
  case isTrue h0 => rw [h0]
  case isFalse h0 => rw [Nat.digits_of_lt b n h0 h, List.reverse_singleton]

theorem numeral_of_le (hb : 1 < b) (h : b ≤ n) : numeral b n = numeral b (n / b) ++ [n % b] := by
  have hn : n ≠ 0 := by omega
  have hq : n / b ≠ 0 := (Nat.div_pos h (by omega)).ne'
  rw [numeral, if_neg hn, Nat.digits_def' hb (by omega), List.reverse_cons, numeral, if_neg hq]

theorem numeral_induction {P : ℕ → Prop} (hb : 1 < b) (one : ∀ n < b, P n)
    (more : ∀ n, b ≤ n → P (n / b) → P n) (n : ℕ) : P n := by
  induction n using Nat.strong_induction_on with
  | _ n ih =>
    by_cases h : n < b
    · exact one n h
    · have hdiv : n / b < n := Nat.div_lt_self (by omega) hb
      exact more n (by omega) (ih _ hdiv)

theorem numeral_lt (hb : 1 < b) (n : ℕ) : ∀ d ∈ numeral b n, d < b := by
  induction n using numeral_induction hb with
  | one n h => simpa [numeral_of_lt h] using h
  | more n h ih =>
    intro d hd
    rw [numeral_of_le hb h, List.mem_append, List.mem_singleton] at hd
    rcases hd with hd | rfl
    · exact ih d hd
    · exact Nat.mod_lt _ (by omega)

theorem numeral_ne_nil (hb : 1 < b) (n : ℕ) : numeral b n ≠ [] := by
  by_cases h : n < b
  · simp [numeral_of_lt h]
  · simp [numeral_of_le hb (Nat.le_of_not_lt h)]

theorem length_numeral_pos (hb : 1 < b) (n : ℕ) : 0 < (numeral b n).length :=
  List.length_pos_iff.mpr (numeral_ne_nil hb n)

theorem length_numeral_le (hb : 1 < b) {k : ℕ} (hk : 0 < k) (h : n < b ^ k) :
    (numeral b n).length ≤ k := by
  unfold numeral
  split
  · exact hk
  · simpa using (Nat.digits_length_le_iff hb n).mpr h

theorem value_concat (ds : List ℕ) (d : ℕ) : value b (ds ++ [d]) = value b ds * b + d := by
  simp [value]

theorem value_zeros (k : ℕ) (ds : List ℕ) : value b (List.replicate k 0 ++ ds) = value b ds := by
  induction k with
  | zero => rfl
  | succ k ih =>
    rw [← ih, List.replicate_succ, List.cons_append, value, List.foldl_cons, Nat.zero_mul]
    rfl

theorem value_numeral (hb : 1 < b) (n : ℕ) : value b (numeral b n) = n := by
  induction n using numeral_induction hb with
  | one n h => simp [numeral_of_lt h, value]
  | more n h ih =>
    rw [numeral_of_le hb h, value_concat, ih]
    exact Nat.div_add_mod' n b

theorem head_numeral_ne_zero (h : n ≠ 0) : (numeral b n).head? ≠ some 0 := by
  rw [numeral, if_neg h, List.head?_reverse]
  intro hlast
  have hne : Nat.digits b n ≠ [] := Nat.digits_ne_nil_iff_ne_zero.mpr h
  rw [List.getLast?_eq_some_getLast hne, Option.some.injEq] at hlast
  exact Nat.getLast_digit_ne_zero b h hlast

/-- A reading of the digits that does not mention how they are computed. -/
structure IsNumeral (b n : ℕ) (ds : List ℕ) : Prop where
  nonempty : ds ≠ []
  lt : ∀ d ∈ ds, d < b
  value : value b ds = n
  noLeadingZero : 1 < ds.length → ds.head? ≠ some 0

theorem isNumeral_numeral (hb : 1 < b) (n : ℕ) : IsNumeral b n (numeral b n) := by
  constructor
  · exact numeral_ne_nil hb n
  · exact numeral_lt hb n
  · exact value_numeral hb n
  · intro hlen
    apply head_numeral_ne_zero
    rintro rfl
    simp [numeral] at hlen

theorem natAbs_toInt_of_nonneg {w : ℕ} {n : BitVec w} (h : ¬ n.toInt < 0) :
    n.toInt.natAbs = n.toNat := by
  have hlt := n.isLt
  rw [BitVec.toInt_eq_toNat_cond] at h ⊢
  split at h
  case isTrue hsmall => rw [if_pos hsmall, Int.natAbs_natCast]
  case isFalse => omega

theorem natAbs_toInt_of_neg {w : ℕ} {n : BitVec w} (h : n.toInt < 0) :
    n.toInt.natAbs = (-n).toNat := by
  have hlt := n.isLt
  have hpos := Nat.two_pow_pos w
  rw [BitVec.toInt_eq_toNat_cond] at h ⊢
  split at h
  case isTrue => omega
  case isFalse hlarge =>
    rw [if_neg hlarge, BitVec.toNat_neg, Nat.mod_eq_of_lt (by omega)]
    omega

theorem natAbs_toInt_lt {w : ℕ} (n : BitVec w) : n.toInt.natAbs < 2 ^ w := by
  by_cases h : n.toInt < 0
  · rw [natAbs_toInt_of_neg h]
    exact (-n).isLt
  · rw [natAbs_toInt_of_nonneg h]
    exact n.isLt

end Numerals

import LibSystemCall.PrimitiveMultiplier
import LibSystemCall.RandSequence
import Mathlib.Tactic.NormNum.Prime
import Mathlib.Tactic.ReduceModChar

/-! # The period of z_rand and z_rand_r

16807 has order `2 ^ 31 - 2` modulo `2 ^ 31 - 1`, so the generators go through all numbers
from 1 to `2 ^ 31 - 2` before one comes again. -/
namespace RandSequence

open PrimitiveMultiplier

theorem prime_factor {q : ℕ} (hq : q.Prime) (h : q ∣ modulus - 1) :
    q = 2 ∨ q = 3 ∨ q = 7 ∨ q = 11 ∨ q = 31 ∨ q = 151 ∨ q = 331 := by
  rw [show modulus - 1 = 2 * (3 * (3 * (7 * (11 * (31 * (151 * 331)))))) from rfl] at h
  have hsame {r : ℕ} (hr : r.Prime) (hd : q ∣ r) : q = r := (Nat.prime_dvd_prime_iff_eq hq hr).mp hd
  simp only [hq.dvd_mul] at h
  rcases h with h | h | h | h | h | h | h | h
  · exact .inl (hsame (by norm_num) h)
  · exact .inr (.inl (hsame (by norm_num) h))
  · exact .inr (.inl (hsame (by norm_num) h))
  · exact .inr (.inr (.inl (hsame (by norm_num) h)))
  · exact .inr (.inr (.inr (.inl (hsame (by norm_num) h))))
  · exact .inr (.inr (.inr (.inr (.inl (hsame (by norm_num) h)))))
  · exact .inr (.inr (.inr (.inr (.inr (.inl (hsame (by norm_num) h))))))
  · exact .inr (.inr (.inr (.inr (.inr (.inr (hsame (by norm_num) h))))))

theorem power_full : (16807 : ZMod 2147483647) ^ 2147483646 = 1 := by
  reduce_mod_char

theorem primitive_16807 : Primitive modulus 16807 where
  two_le := by decide
  full := power_full
  proper q hq h := by
    change (16807 : ZMod 2147483647) ^ (2147483646 / q) ≠ 1
    rcases prime_factor hq h with rfl | rfl | rfl | rfl | rfl | rfl | rfl <;>
      norm_num <;> reduce_mod_char <;> decide

theorem term_cast (x : ℕ) : (term x : ZMod modulus) = 16807 * started x := by
  rw [term, ZMod.natCast_mod, ← started]
  push_cast
  rfl

theorem cast_eq {x y : ℕ} (hx : x < modulus) (hy : y < modulus)
    (h : (x : ZMod modulus) = y) : x = y := by
  rw [ZMod.natCast_eq_natCast_iff'] at h
  rwa [Nat.mod_eq_of_lt hx, Nat.mod_eq_of_lt hy] at h

theorem term_zero_iff (x : ℕ) : term x = 0 ↔ (started x : ZMod modulus) = 0 := by
  have := Fact.mk primitive_16807.prime
  constructor
  · intro h
    have hz := term_cast x
    rw [h, Nat.cast_zero, eq_comm, mul_eq_zero] at hz
    exact hz.resolve_left primitive_16807.ne_zero
  · intro h
    apply cast_eq (term_lt x) (by decide)
    rw [term_cast, h, mul_zero, Nat.cast_zero]

theorem started_of_ne {x : ℕ} (h : x ≠ 0) : started x = x := if_neg h

theorem term_iterate {x : ℕ} (h : (started x : ZMod modulus) ≠ 0) (n : ℕ) :
    (term^[n + 1] x : ZMod modulus) = 16807 ^ (n + 1) * started x := by
  have := Fact.mk primitive_16807.prime
  induction n with
  | zero => rw [zero_add, pow_one]; exact term_cast x
  | succ n ih =>
    have hne : term^[n + 1] x ≠ 0 := by
      intro hz
      rw [hz, Nat.cast_zero, eq_comm, mul_eq_zero] at ih
      exact ih.elim (pow_ne_zero _ primitive_16807.ne_zero) h
    rw [Function.iterate_succ_apply', term_cast, started_of_ne hne, ih, ← mul_assoc, ← pow_succ']

theorem zero_term_iff {seed k : ℕ} (hseed : seed < 2 ^ 32) :
    term^[k + 1] seed = 0 ↔ k = 0 ∧ (seed = modulus ∨ seed = 2 * modulus) := by
  have hdvd (x : ℕ) : term x = 0 ↔ modulus ∣ started x := by
    rw [term_zero_iff, ZMod.natCast_eq_zero_iff]
  rw [Function.iterate_succ_apply', hdvd]
  cases k with
  | zero =>
    simp only [Function.iterate_zero, id, true_and]
    by_cases h : seed = 0
    · simp [h, started, modulus]
    · rw [started_of_ne h, modulus]
      omega
  | succ k =>
    have hlt : term^[k + 1] seed < modulus := by
      rw [Function.iterate_succ_apply']
      exact term_lt _
    refine iff_of_false (fun hd => ?_) (fun hk => absurd hk.1 (Nat.succ_ne_zero k))
    by_cases h : term^[k + 1] seed = 0
    · rw [h] at hd
      exact absurd hd (by decide)
    · rw [started_of_ne h] at hd
      exact absurd (Nat.le_of_dvd (Nat.pos_of_ne_zero h) hd) (Nat.not_le_of_gt hlt)

theorem results (seed : BitVec 32) (n : ℕ) :
    randAfter seed n = BitVec.ofNat 32 (term^[n + 1] seed.toNat) ∧
      randRAfter seed n = BitVec.ofNat 32 (term^[n + 1] seed.toNat) := by
  obtain ⟨hrand, hrandR, hlt⟩ := states_after seed n
  have hstep := (zDoRand_term ((toNat_wide hlt).symm ▸ hlt)).2
  rw [toNat_wide hlt] at hstep
  rw [Function.iterate_succ_apply']
  refine ⟨?_, ?_⟩
  · rw [randAfter, hrand]
    exact hstep
  · rw [randRAfter, hrandR, zRandR, widen hlt]
    exact hstep

theorem result_eq_iff {seed : BitVec 32} {n : ℕ} {v : BitVec 32} :
    randAfter seed n = v ↔ term^[n + 1] seed.toNat = v.toNat := by
  have hlt : term^[n + 1] seed.toNat < 2 ^ 32 := (states_after seed (n + 1)).2.2
  rw [(results seed n).1, BitVec.toNat_eq, BitVec.toNat_ofNat, Nat.mod_eq_of_lt hlt]

/-- Both generators agree; a result is 0 only as the first one, of the seeds that are multiples
of the modulus; and from each other result on, each number from 1 to `2 ^ 31 - 2` comes exactly
once in the next `2 ^ 31 - 2` results. -/
theorem rand_full_period (seed : BitVec 32) (k : ℕ) :
    randRAfter seed k = randAfter seed k ∧
      (randAfter seed k = 0 ↔ k = 0 ∧ (seed = 0x7fffffff ∨ seed = 0xfffffffe)) ∧
      (randAfter seed k ≠ 0 → ∀ v : BitVec 32, v ≠ 0 → v.toNat < modulus →
        ∃! n, k ≤ n ∧ n < k + (modulus - 1) ∧ randAfter seed n = v) := by
  obtain ⟨hrand, hrandR⟩ := results seed k
  refine ⟨hrandR.trans hrand.symm, ?_, ?_⟩
  · rw [result_eq_iff]
    simp only [BitVec.toNat_eq]
    exact zero_term_iff seed.isLt
  · intro hk v hv hlt
    have hv : (v.toNat : ZMod modulus) ≠ 0 := fun hz =>
      hv (BitVec.eq_of_toNat_eq (cast_eq hlt (by decide) (hz.trans Nat.cast_zero.symm)))
    have hx : (started (term^[k] seed.toNat) : ZMod modulus) ≠ 0 := by
      rw [Ne, result_eq_iff, Function.iterate_succ_apply'] at hk
      exact fun hz => hk ((term_zero_iff _).mpr hz)
    -- The results from `k` on are the powers 1, 2, … of the multiplier times this start.
    have hresult (j : ℕ) : randAfter seed (k + j) = v ↔
        16807 ^ (j + 1) * (started (term^[k] seed.toNat) : ZMod modulus) = v.toNat := by
      rw [result_eq_iff, ← term_iterate hx, ← Function.iterate_add_apply,
        show k + j + 1 = j + 1 + k by omega]
      refine ⟨fun h => by rw [h], cast_eq ?_ hlt⟩
      rw [show j + 1 + k = j + k + 1 by omega, Function.iterate_succ_apply']
      exact term_lt _
    obtain ⟨m, ⟨hm, hmlt, hterm⟩, huniq⟩ := primitive_16807.existsUnique_term hx hv 1
    obtain ⟨j, rfl⟩ := Nat.exists_eq_add_of_le' hm
    refine ⟨k + j, ⟨by omega, by omega, (hresult j).mpr hterm⟩, ?_⟩
    rintro n ⟨hkn, hn, heq⟩
    obtain ⟨i, rfl⟩ := Nat.exists_eq_add_of_le hkn
    have := huniq (i + 1) ⟨by omega, by omega, (hresult i).mp heq⟩
    omega

theorem rand_full_period_one :
    (randAfter 1 0 ≠ 0) ∧ ∃! n, 0 ≤ n ∧ n < 0 + (modulus - 1) ∧ randAfter 1 n = 12345 :=
  ⟨by decide, (rand_full_period 1 0).2.2 (by decide) 12345 (by decide) (by decide)⟩

end RandSequence

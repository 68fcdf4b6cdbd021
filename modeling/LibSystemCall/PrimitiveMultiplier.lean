import Mathlib.FieldTheory.Finite.Basic
import Mathlib.NumberTheory.LucasPrimality

/-! # Sequences x, a x, a² x, … modulo a prime

A multiplier of order `p - 1` takes a nonzero start through every nonzero residue before it
comes back. The powers that show its order also show that `p` is prime. -/
namespace PrimitiveMultiplier

/-- Every power of `a` at which its order could fall short of `p - 1`. -/
structure Primitive (p : ℕ) (a : ZMod p) : Prop where
  two_le : 2 ≤ p
  full : a ^ (p - 1) = 1
  proper : ∀ q, q.Prime → q ∣ p - 1 → a ^ ((p - 1) / q) ≠ 1

variable {p : ℕ} {a x v : ZMod p}

theorem Primitive.prime (h : Primitive p a) : p.Prime := lucas_primality p a h.full h.proper

theorem Primitive.order (h : Primitive p a) : orderOf a = p - 1 :=
  orderOf_eq_of_pow_and_pow_div_prime (Nat.sub_pos_of_lt h.two_le) h.full h.proper

theorem Primitive.ne_zero (h : Primitive p a) : a ≠ 0 := by
  have := Fact.mk h.prime
  rintro rfl
  have hfull := h.full
  rw [zero_pow (Nat.sub_pos_of_lt h.two_le).ne'] at hfull
  exact zero_ne_one hfull

theorem Primitive.exists_pow (h : Primitive p a) (hv : v ≠ 0) : ∃ n < p - 1, a ^ n = v := by
  have := Fact.mk h.prime
  let u : (ZMod p)ˣ := Units.mk0 a h.ne_zero
  have hu : orderOf u = p - 1 := (orderOf_units (y := u)).symm.trans h.order
  have htop : Subgroup.zpowers u = ⊤ := by
    apply Subgroup.eq_top_of_card_eq
    rw [Nat.card_zpowers, hu, Nat.card_eq_fintype_card, ZMod.card_units]
  have hmem : Units.mk0 v hv ∈ Subgroup.zpowers u := htop ▸ Subgroup.mem_top _
  rw [mem_zpowers_iff_mem_range_orderOf, hu] at hmem
  obtain ⟨n, hn, hpow⟩ := Finset.mem_image.mp hmem
  refine ⟨n, Finset.mem_range.mp hn, ?_⟩
  have := congrArg Units.val hpow
  simpa [u] using this

theorem Primitive.existsUnique_term (h : Primitive p a) (hx : x ≠ 0) (hv : v ≠ 0) (k : ℕ) :
    ∃! n, k ≤ n ∧ n < k + (p - 1) ∧ a ^ n * x = v := by
  have := Fact.mk h.prime
  have hak : a ^ k * x ≠ 0 := mul_ne_zero (pow_ne_zero k h.ne_zero) hx
  obtain ⟨m, hm, hpow⟩ := h.exists_pow (div_ne_zero hv hak)
  refine ⟨k + m, ⟨by omega, by omega, ?_⟩, ?_⟩
  · rw [pow_add, mul_right_comm, hpow, mul_div_cancel₀ _ hak]
  · rintro n ⟨hkn, hn, hterm⟩
    obtain ⟨j, rfl⟩ := Nat.exists_eq_add_of_le hkn
    have hj : a ^ j = a ^ m := by
      rw [hpow, eq_div_iff hak, ← hterm, pow_add]
      ring
    have hjm : j = m := pow_injOn_Iio_orderOf
      (Set.mem_Iio.mpr (by rw [h.order]; omega)) (Set.mem_Iio.mpr (by rw [h.order]; exact hm)) hj
    rw [hjm]

end PrimitiveMultiplier

import Mathlib.Data.Int.ModEq
import Mathlib.Tactic.Ring
import Mathlib.Logic.Function.Iterate

/-! # z_rand and z_rand_r

One step computes `16807 * x` modulo `2 ^ 31 - 1` by Schrage's quotient and remainder. The
signed variables of `z_do_rand` never overflow and are integers here. -/
namespace RandSequence

def RAND_MAX : BitVec 64 := 0x7fffffff

def zDoRand (ctx : BitVec 64) : BitVec 64 × BitVec 32 :=
  let ctx := if ctx = 0 then 123459876 else ctx
  let hi : ℤ := (ctx / 127773).toNat
  let lo : ℤ := (ctx % 127773).toNat
  let x := 16807 * lo - 2836 * hi
  let x := if x < 0 then x + 0x7fffffff else x
  let ctx := BitVec.ofInt 64 x
  (ctx, (ctx % (RAND_MAX + 1)).setWidth 32)

def zSrand (seed : BitVec 32) : BitVec 64 := seed.setWidth 64

def zRand (next : BitVec 64) : BitVec 64 × BitVec 32 := zDoRand next

def zRandR (ctx : BitVec 32) : BitVec 32 × BitVec 32 :=
  let val := zDoRand (ctx.setWidth 64)
  (val.1.setWidth 32, val.2)

def randAfter (seed : BitVec 32) (n : ℕ) : BitVec 32 :=
  (zRand ((fun next => (zRand next).1)^[n] (zSrand seed))).2

def randRAfter (seed : BitVec 32) (n : ℕ) : BitVec 32 :=
  (zRandR ((fun ctx => (zRandR ctx).1)^[n] seed)).2

def modulus : ℕ := 2 ^ 31 - 1

def term (x : ℕ) : ℕ := 16807 * (if x = 0 then 123459876 else x) % modulus

theorem term_lt (x : ℕ) : term x < modulus := Nat.mod_lt _ (by decide)

/-- Schrage's trick, for a modulus `a * q + r`. -/
theorem schrage (a q r x : ℕ) :
    (a * (x % q : ℕ) - r * (x / q : ℕ) : ℤ) ≡ a * x [ZMOD (a * q + r : ℕ)] := by
  have hx : (x : ℤ) = q * (x / q : ℕ) + (x % q : ℕ) := by exact_mod_cast (Nat.div_add_mod x q).symm
  refine (Int.modEq_iff_dvd).mpr ⟨(x / q : ℕ), ?_⟩
  rw [hx]
  push_cast
  ring

/-- The quotient's part is at most one modulus ahead of the remainder's. -/
def OneAddition (x : ℕ) : Prop := 2836 * (x / 127773) ≤ 16807 * (x % 127773) + modulus

instance (x : ℕ) : Decidable (OneAddition x) := inferInstanceAs (Decidable (_ ≤ _))

theorem oneAddition_of_lt {x : ℕ} (hx : x < 2 ^ 32) : OneAddition x := by
  have hhi : x / 127773 < 33615 := Nat.div_lt_of_lt_mul (by omega)
  simp only [OneAddition, modulus]
  omega

theorem schrage_value {x : ℕ} (h : OneAddition x) :
    let d : ℤ := 16807 * (x % 127773 : ℕ) - 2836 * (x / 127773 : ℕ)
    (if d < 0 then d + 0x7fffffff else d) = (16807 * x % modulus : ℕ) := by
  intro d
  have hlo : x % 127773 < 127773 := Nat.mod_lt _ (by decide)
  have hmod : d % 2147483647 = 16807 * x % 2147483647 := schrage 16807 127773 2836 x
  have hcast : ((16807 * x % modulus : ℕ) : ℤ) = 16807 * x % 2147483647 := by
    rw [modulus]
    push_cast
    rfl
  simp only [OneAddition, modulus] at h
  rw [hcast, ← hmod]
  split
  · next hneg => rw [← Int.add_emod_right, Int.emod_eq_of_lt (by omega) (by omega)]
  · next hpos => rw [Int.emod_eq_of_lt (by omega) (by omega)]

def started (x : ℕ) : ℕ := if x = 0 then 123459876 else x

theorem started_toNat (ctx : BitVec 64) :
    (if ctx = 0 then 123459876 else ctx).toNat = started ctx.toNat := by
  have hzero : (ctx = 0) = (ctx.toNat = 0) := by
    simp [BitVec.toNat_eq]
  rw [apply_ite BitVec.toNat]
  simp only [hzero, started]
  rfl

theorem zDoRand_started {ctx : BitVec 64} (h : OneAddition (started ctx.toNat)) :
    (zDoRand ctx).1 = BitVec.ofNat 64 (term ctx.toNat) ∧
      (zDoRand ctx).2 = BitVec.ofNat 32 (term ctx.toNat) := by
  have hstate : (zDoRand ctx).1 = BitVec.ofNat 64 (term ctx.toNat) := by
    simp only [zDoRand, BitVec.toNat_udiv, BitVec.toNat_umod, started_toNat]
    rw [show (127773 : BitVec 64).toNat = 127773 from rfl, schrage_value h]
    exact BitVec.ofInt_natCast 64 _
  refine ⟨hstate, ?_⟩
  have hterm := term_lt ctx.toNat
  change ((zDoRand ctx).1 % (RAND_MAX + 1)).setWidth 32 = _
  rw [hstate]
  apply BitVec.eq_of_toNat_eq
  have hmax : (RAND_MAX + 1).toNat = 2 ^ 31 := rfl
  rw [modulus] at hterm
  rw [BitVec.toNat_setWidth, BitVec.toNat_umod, hmax, BitVec.toNat_ofNat, BitVec.toNat_ofNat]
  omega

theorem zDoRand_term {ctx : BitVec 64} (h : ctx.toNat < 2 ^ 32) :
    (zDoRand ctx).1 = BitVec.ofNat 64 (term ctx.toNat) ∧
      (zDoRand ctx).2 = BitVec.ofNat 32 (term ctx.toNat) := by
  apply zDoRand_started
  apply oneAddition_of_lt
  unfold started
  split
  · decide
  · exact h

theorem toNat_wide {x : ℕ} (h : x < 2 ^ 32) : (BitVec.ofNat 64 x).toNat = x := by
  rw [BitVec.toNat_ofNat, Nat.mod_eq_of_lt (by omega)]

theorem widen {x : ℕ} (h : x < 2 ^ 32) : (BitVec.ofNat 32 x).setWidth 64 = BitVec.ofNat 64 x := by
  apply BitVec.eq_of_toNat_eq
  rw [toNat_wide h, BitVec.toNat_setWidth, BitVec.toNat_ofNat]
  omega

theorem term_small (x : ℕ) : term x < 2 ^ 32 := Nat.lt_trans (term_lt x) (by decide)

theorem states_after (seed : BitVec 32) (n : ℕ) :
    (fun next => (zRand next).1)^[n] (zSrand seed) = BitVec.ofNat 64 (term^[n] seed.toNat) ∧
      (fun ctx => (zRandR ctx).1)^[n] seed = BitVec.ofNat 32 (term^[n] seed.toNat) ∧
      term^[n] seed.toNat < 2 ^ 32 := by
  induction n with
  | zero =>
    have hseed : (BitVec.ofNat 32 seed.toNat).setWidth 64 = BitVec.ofNat 64 seed.toNat :=
      widen seed.isLt
    rw [BitVec.ofNat_toNat, BitVec.setWidth_eq] at hseed
    exact ⟨hseed, by simp, seed.isLt⟩
  | succ n ih =>
    obtain ⟨hrand, hrandR, hlt⟩ := ih
    have hstep := (zDoRand_term ((toNat_wide hlt).symm ▸ hlt)).1
    rw [toNat_wide hlt] at hstep
    simp only [Function.iterate_succ_apply']
    rw [hrand, hrandR]
    refine ⟨hstep, ?_, term_small _⟩
    rw [zRandR, widen hlt, hstep, ← widen (term_small _)]
    simp

/-- Both generators yield the terms of the sequence. -/
theorem rand_sequence (seed : BitVec 32) (n : ℕ) :
    randRAfter seed n = randAfter seed n ∧
      (randAfter seed n).toInt = term^[n + 1] seed.toNat ∧
      0 ≤ (randAfter seed n).toInt ∧ (randAfter seed n).toInt ≤ 2 ^ 31 - 2 := by
  obtain ⟨hrand, hrandR, hlt⟩ := states_after seed n
  have hresult : randAfter seed n = BitVec.ofNat 32 (term (term^[n] seed.toNat)) := by
    have hstep := (zDoRand_term ((toNat_wide hlt).symm ▸ hlt)).2
    rw [toNat_wide hlt] at hstep
    rw [randAfter, hrand]
    exact hstep
  have hterm := term_lt (term^[n] seed.toNat)
  have hint : (randAfter seed n).toInt = term (term^[n] seed.toNat) := by
    rw [modulus] at hterm
    rw [hresult, BitVec.toInt_ofNat', Int.bmod_eq_of_le (by omega) (by omega)]
  rw [modulus] at hterm
  refine ⟨?_, ?_, ?_, ?_⟩
  · rw [randRAfter, randAfter, hrand, hrandR, zRandR, widen hlt]
    rfl
  · rw [hint, Function.iterate_succ_apply']
  · omega
  · omega

/-- `2 ^ 31 - 1` is followed by 0, and 0 by the term of its replacement. -/
example : randRAfter 0x7fffffff 0 = 0 ∧ randRAfter 0x7fffffff 1 = randRAfter 0 0 := by decide

end RandSequence

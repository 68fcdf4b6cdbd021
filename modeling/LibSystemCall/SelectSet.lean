import LibSystemCall.WordMask
import Mathlib.Data.List.Basic
import Mathlib.Logic.Function.Basic

/-! # z_fd_set and z_fd_isset

A set of descriptors is an array of 1024 ints, one bit a descriptor. The words after the
array are other memory of the process. -/
namespace SelectSet

/-- `sizeof(((struct z_fd_set *)0)->fds_bits) / sizeof(z_int32)` -/
def fdsBits : ℕ := 1024

def NFDBITS : ℕ := 32

/-- The words from `fds_bits` on. -/
abbrev Words := ℕ → BitVec 32

/-- `(z_uint64)fd / z_NFDBITS`; a negative descriptor is sign-extended. -/
def wordOf (fd : BitVec 32) : ℕ := (fd.signExtend 64).toNat / NFDBITS

/-- `(z_uint64)fd % z_NFDBITS` -/
def bitOf (fd : BitVec 32) : ℕ := (fd.signExtend 64).toNat % NFDBITS

def maskOf (fd : BitVec 32) : BitVec 32 := ((1 : BitVec 64) <<< bitOf fd).setWidth 32

def zFdSet (fd : BitVec 32) (p : Words) : Words :=
  Function.update p (wordOf fd) (p (wordOf fd) ||| maskOf fd)

/-- Any bit but a 0 counts; descriptor 31 gives a negative int. -/
def zFdIsset (fd : BitVec 32) (p : Words) : BitVec 32 := p (wordOf fd) &&& maskOf fd

def sets (fds : List (BitVec 32)) (p : Words) : Words := fds.foldl (fun p fd => zFdSet fd p) p

theorem bitOf_lt (fd : BitVec 32) : bitOf fd < 32 := Nat.mod_lt _ (by decide)

theorem maskOf_bit (fd : BitVec 32) {k : ℕ} (hk : k < 32) :
    (maskOf fd).getLsbD k = decide (k = bitOf fd) := by
  simp only [maskOf, BitVec.getLsbD_setWidth, BitVec.getLsbD_shiftLeft]
  by_cases hlt : k < bitOf fd
  · simp [hlt, Nat.ne_of_lt hlt]
  · have hone : k - bitOf fd = 0 ↔ k = bitOf fd := by omega
    have hwide : k < 64 := by omega
    simp [hlt, hk, hwide, hone]

theorem isset_iff (fd : BitVec 32) (p : Words) :
    zFdIsset fd p ≠ 0 ↔ (p (wordOf fd)).getLsbD (bitOf fd) = true :=
  WordMask.and_bit_ne_zero (bitOf_lt fd) fun _ hk => maskOf_bit fd hk

theorem same_place {a b : BitVec 32} (hw : wordOf a = wordOf b) (hb : bitOf a = bitOf b) :
    a = b := by
  have h : (a.signExtend 64).toNat = (b.signExtend 64).toNat := by
    rw [← Nat.div_add_mod (a.signExtend 64).toNat NFDBITS,
      ← Nat.div_add_mod (b.signExtend 64).toNat NFDBITS]
    exact congrArg₂ (fun w r => NFDBITS * w + r) hw hb
  apply BitVec.eq_of_toInt_eq
  rw [← BitVec.toInt_signExtend_of_le (x := a) (show 32 ≤ 64 by decide), BitVec.eq_of_toNat_eq h,
    BitVec.toInt_signExtend_of_le (by decide)]

theorem isset_set (a b : BitVec 32) (p : Words) :
    zFdIsset a (zFdSet b p) ≠ 0 ↔ a = b ∨ zFdIsset a p ≠ 0 := by
  rw [isset_iff, isset_iff, zFdSet, Function.update_apply]
  by_cases hw : wordOf a = wordOf b
  · rw [if_pos hw, BitVec.getLsbD_or, maskOf_bit b (bitOf_lt a), hw, Bool.or_eq_true,
      decide_eq_true_iff, or_comm]
    refine or_congr ⟨same_place hw, ?_⟩ Iff.rfl
    rintro rfl
    rfl
  · rw [if_neg hw]
    refine (or_iff_right ?_).symm
    rintro rfl
    exact hw rfl

def InRange (fd : BitVec 32) : Prop := 0 ≤ fd.toInt ∧ fd.toInt < 32768

instance (fd : BitVec 32) : Decidable (InRange fd) := inferInstanceAs (Decidable (_ ∧ _))

theorem wordOf_inside (fd : BitVec 32) : wordOf fd < fdsBits ↔ InRange fd := by
  have hint : (fd.signExtend 64).toInt = fd.toInt := BitVec.toInt_signExtend_of_le (by decide)
  rw [InRange, ← hint, BitVec.toInt_eq_toNat_cond, wordOf, fdsBits, NFDBITS]
  have hlt := (fd.signExtend 64).isLt
  split <;> omega

theorem zFdSet_outside {fd : BitVec 32} (h : InRange fd) (p : Words) {k : ℕ} (hk : fdsBits ≤ k) :
    zFdSet fd p k = p k := by
  have hin := (wordOf_inside fd).mpr h
  exact Function.update_of_ne (by omega) _ _

theorem isset_sets (a : BitVec 32) (fds : List (BitVec 32)) (p : Words) :
    zFdIsset a (sets fds p) ≠ 0 ↔ a ∈ fds ∨ zFdIsset a p ≠ 0 := by
  induction fds generalizing p with
  | nil => simp [sets]
  | cons b fds ih =>
    rw [sets, List.foldl_cons, ← sets, ih, isset_set, List.mem_cons, or_left_comm, or_assoc]

theorem sets_outside {fds : List (BitVec 32)} (h : ∀ fd ∈ fds, InRange fd) (p : Words) {k : ℕ}
    (hk : fdsBits ≤ k) : sets fds p k = p k := by
  induction fds generalizing p with
  | nil => rfl
  | cons b fds ih =>
    rw [sets, List.foldl_cons, ← sets, ih fun fd hfd => h fd (List.mem_cons_of_mem b hfd)]
    exact zFdSet_outside (h b List.mem_cons_self) p hk

/-- A cleared array after any calls of `z_fd_set` holds just their descriptors, and the calls
write in the array if and only if each descriptor is one of the 32768. -/
theorem fd_set_exact (fds : List (BitVec 32)) {p : Words} (hp : ∀ k < fdsBits, p k = 0) :
    (∀ a, InRange a → (zFdIsset a (sets fds p) ≠ 0 ↔ a ∈ fds)) ∧
      ((∀ fd ∈ fds, wordOf fd < fdsBits) ↔ ∀ fd ∈ fds, InRange fd) ∧
      ((∀ fd ∈ fds, InRange fd) → ∀ k, fdsBits ≤ k → sets fds p k = p k) := by
  refine ⟨fun a ha => ?_, ?_, fun h k hk => sets_outside h p hk⟩
  · have hclear : zFdIsset a p = 0 := by
      rw [zFdIsset, hp _ ((wordOf_inside a).mpr ha)]
      exact BitVec.zero_and
    rw [isset_sets, or_iff_left (not_not_intro hclear)]
  · simp only [wordOf_inside]

/-- Descriptor 31 is the sign bit of its word. -/
theorem fd_set_exact_31 :
    let p : Words := sets [31, 33] fun _ => 0
    (∀ a, InRange a → (zFdIsset a p ≠ 0 ↔ a ∈ [31, 33])) ∧
      ((∀ fd ∈ [31, 33], wordOf fd < fdsBits) ↔ ∀ fd ∈ [31, 33], InRange fd) ∧
      ((∀ fd ∈ [31, 33], InRange fd) → ∀ k, fdsBits ≤ k → p k = 0) :=
  fd_set_exact [31, 33] fun _ _ => rfl

end SelectSet

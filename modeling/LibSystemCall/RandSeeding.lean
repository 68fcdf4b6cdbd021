import LibSystemCall.RandSequence
import LibSystemCall.DirentDescriptors
import Mathlib.Data.Finset.Lattice.Fold
import Mathlib.Order.Lattice.Nat

/-! # Seeding from a device

`z_sranddev` installs the eight bytes it reads as the 64 bits of the state, or seeds from the
time and the process. One corrective addition is enough after every 32-bit seed, and not after
every state that the device can give. -/
namespace RandSeeding

open DirentDescriptors RandSequence

/-- What the kernel answers; `bytes` is what the read leaves in `next`. -/
structure Device where
  read : Answer
  bytes : BitVec 64
  timeOfDay : Answer
  sec : BitVec 64
  usec : BitVec 32
  pid : BitVec 32

/-- The result of a system call that opens and closes nothing; -1 with errno set, or a value. -/
def answered (w : World) : Answer → World × ℤ
  | .failed err => ({ w with errno := w.errno.store (.failedCall err) }, -1)
  | .value v => (w, v)

@[simp] theorem answered_fds (w : World) (a : Answer) : (answered w a).1.fds = w.fds := by
  cases a <;> rfl

def Device.seed (D : Device) : BitVec 32 :=
  ((D.pid <<< 16).signExtend 64 ^^^ D.sec ^^^ D.usec.signExtend 64).setWidth 32

def readNext (E : Env) (D : Device) (w : World) (next : BitVec 64) : World × Bool × BitVec 64 :=
  let (w, fd) := zOpen E w
  if 0 ≤ fd then
    let (w, count) := answered w D.read
    ((zClose E w fd).1, count = 8, D.bytes)
  else (w, false, next)

def zSranddev (E : Env) (D : Device) (w : World) (next : BitVec 64) : World × BitVec 64 :=
  let (w, done, next) := readNext E D w next
  if done then (w, next) else ((answered w D.timeOfDay).1, zSrand D.seed)

def ReadsState (E : Env) (D : Device) (w : World) : Prop :=
  0 ≤ (zOpen E w).2 ∧ (answered (zOpen E w).1 D.read).2 = 8

theorem zSranddev_next (E : Env) (D : Device) (w : World) (next : BitVec 64) :
    (ReadsState E D w → (zSranddev E D w next).2 = D.bytes) ∧
      (¬ ReadsState E D w → (zSranddev E D w next).2 = zSrand D.seed) := by
  unfold ReadsState zSranddev readNext
  constructor
  · rintro ⟨hfd, hcount⟩
    simp [hfd, hcount]
  · intro h
    by_cases hfd : 0 ≤ (zOpen E w).2
    · have hcount : (answered (zOpen E w).1 D.read).2 ≠ 8 := fun hc => h ⟨hfd, hc⟩
      simp [hfd, hcount]
    · simp [hfd]

structure SoundStep (next : BitVec 64) : Prop where
  range : 0 ≤ (zRand next).2.toInt ∧ (zRand next).2.toInt ≤ 2 ^ 31 - 2
  follows : (zRand next).2.toInt ≡ 16807 * started next.toNat [ZMOD (2 ^ 31 - 1 : ℕ)]
  state : ((zRand next).1.toNat : ℤ) = (zRand next).2.toInt

def Sound (next : BitVec 64) : Prop := ∀ n, SoundStep ((fun s => (zRand s).1)^[n] next)

theorem term_toInt (x : ℕ) : (BitVec.ofNat 32 (term x)).toInt = term x := by
  have hterm := term_lt x
  rw [modulus] at hterm
  rw [BitVec.toInt_ofNat', Int.bmod_eq_of_le (by omega) (by omega)]

theorem soundStep_of_oneAddition {next : BitVec 64} (h : OneAddition (started next.toNat)) :
    SoundStep next := by
  obtain ⟨hstate, hresult⟩ := zDoRand_started h
  have hterm := term_lt next.toNat
  rw [modulus] at hterm
  constructor
  · rw [zRand, hresult, term_toInt]
    omega
  · rw [zRand, hresult, term_toInt]
    exact_mod_cast Nat.mod_modEq (16807 * started next.toNat) (2 ^ 31 - 1)
  · rw [zRand, hresult, hstate, term_toInt, toNat_wide (term_small _)]

/-- Otherwise the addition leaves a negative number, which is a state above every result. -/
theorem state_of_not_oneAddition {next : BitVec 64} (h : ¬ OneAddition (started next.toNat)) :
    2 ^ 63 ≤ (zRand next).1.toNat := by
  have hlt : started next.toNat < 2 ^ 64 := by
    rw [← started_toNat]
    exact BitVec.isLt _
  have hneg : ∃ x : ℤ, (zRand next).1 = BitVec.ofInt 64 x ∧ -2 ^ 63 ≤ x ∧ x < 0 := by
    simp only [OneAddition, modulus] at h
    refine ⟨_, rfl, ?_, ?_⟩
    · simp only [BitVec.toNat_udiv, BitVec.toNat_umod, started_toNat]
      rw [show (127773 : BitVec 64).toNat = 127773 from rfl]
      split_ifs <;> omega
    · simp only [BitVec.toNat_udiv, BitVec.toNat_umod, started_toNat]
      rw [show (127773 : BitVec 64).toNat = 127773 from rfl, if_pos (by omega)]
      omega
  obtain ⟨x, hx, hlow, hneg⟩ := hneg
  rw [hx, BitVec.toNat_ofInt]
  omega

theorem result_lt (next : BitVec 64) : (zRand next).2.toInt < 2 ^ 31 := by
  have hlt := BitVec.toInt_lt (x := (zRand next).2)
  omega

theorem soundStep_iff (next : BitVec 64) :
    SoundStep next ↔ OneAddition (started next.toNat) := by
  constructor
  · intro h
    by_contra hbad
    have hlarge := state_of_not_oneAddition hbad
    have hstate := h.state
    have hsmall := result_lt next
    omega
  · exact soundStep_of_oneAddition

/-- After one sound step the state is below `2 ^ 31`, and the next ones are sound. -/
theorem sound_iff (next : BitVec 64) : Sound next ↔ OneAddition (started next.toNat) := by
  constructor
  · intro h
    exact (soundStep_iff next).mp (h 0)
  · intro h n
    have hstep : SoundStep next := (soundStep_iff next).mpr h
    induction n generalizing next with
    | zero => exact hstep
    | succ n ih =>
      have hnext : OneAddition (started (zRand next).1.toNat) := by
        have hrange := hstep.range
        have hstate := hstep.state
        apply oneAddition_of_lt
        unfold started
        split <;> omega
      exact ih _ hnext ((soundStep_iff _).mpr hnext)

theorem seed_sound (seed : BitVec 32) : Sound (zSrand seed) := by
  rw [sound_iff]
  apply oneAddition_of_lt
  have hseed : (zSrand seed).toNat < 2 ^ 32 := by
    rw [zSrand, BitVec.toNat_setWidth]
    omega
  unfold started
  split <;> omega

/-- The results after `z_sranddev` are sound unless the device gives a state whose quotient part is
too large. -/
theorem sranddev_sound_iff (E : Env) (D : Device) (w : World) (next : BitVec 64) :
    Sound (zSranddev E D w next).2 ↔
      (ReadsState E D w → OneAddition (started D.bytes.toNat)) := by
  obtain ⟨hread, hfallback⟩ := zSranddev_next E D w next
  by_cases h : ReadsState E D w
  · rw [hread h, sound_iff]
    exact ⟨fun hone _ => hone, fun hone => hone h⟩
  · rw [hfallback h]
    exact ⟨fun _ hr => absurd hr h, fun _ => seed_sound D.seed⟩

def obliging : Env where
  answer _ := .value 0
  eof _ := true
  newFd fds := (fds.sup Int.toNat : ℕ) + 1
  live := 0
  scanned := 0
  fresh fds hmem := by
    have hle := Finset.le_sup (f := Int.toNat) hmem
    omega
  nonneg fds := by omega

def atRest : World where
  fds := {0, 1, 2}
  errno := ⟨⟨fun _ => 0, 0, 0⟩, .inr (by decide)⟩
  log := []

def highDevice : Device := ⟨.value 8, 0x8000000000000000, .value 0, 0, 0, 1⟩

theorem highDevice_read : ReadsState obliging highDevice atRest := ⟨by decide, rfl⟩

theorem high_state_unsound : ¬ Sound (zSranddev obliging highDevice atRest 1).2 := by
  rw [(zSranddev_next obliging highDevice atRest 1).1 highDevice_read]
  intro h
  have hstate := (h 0).state
  revert hstate
  decide

end RandSeeding

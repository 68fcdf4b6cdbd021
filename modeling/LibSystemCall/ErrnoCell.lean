import LibSystemCall.ThreadRecord
import Mathlib.Data.List.Basic
import Mathlib.Data.List.Induction

/-! # The errno cell

`z_cerror_nocancel` stores a `z_int32` through the TSD errno slot, `z_errno` reads and
assigns a `z_int64` through the same slot. -/
namespace ErrnoCell

open ByteMemory StructLayout ThreadRecord

def tsdErrno : ℕ := 1

/-- What a thread sees of errno: memory, the base of its TSD segment and `__errno`. -/
structure World where
  mem : Memory
  gs : ℕ
  errnoGlobal : BitVec 64

def zTsdGetDirect (w : World) (slot : ℕ) : BitVec 64 := loadWord 64 w.mem (w.gs + slot * 8)

inductive ErrnoPtr where
  | tsd (a : BitVec 64)
  | global
  deriving DecidableEq, Repr

def zPerrno (w : World) : ErrnoPtr :=
  if zTsdGetDirect w tsdErrno ≠ 0 then .tsd (zTsdGetDirect w tsdErrno) else .global

def readErrno (w : World) : BitVec 64 :=
  match zPerrno w with
  | .tsd a => loadWord 64 w.mem a.toNat
  | .global => w.errnoGlobal

def assignErrno (w : World) (e : BitVec 32) : World :=
  match zPerrno w with
  | .tsd a => { w with mem := storeWord w.mem a.toNat (e.signExtend 64) }
  | .global => { w with errnoGlobal := e.signExtend 64 }

def zCerrorNocancel (w : World) (err : BitVec 32) : World × BitVec 64 :=
  let w := { w with errnoGlobal := err.signExtend 64 }
  let tsderrno := zTsdGetDirect w tsdErrno
  (if tsderrno ≠ 0 then { w with mem := storeWord w.mem tsderrno.toNat err } else w, -1)

inductive ErrnoStore where
  | failedCall (e : BitVec 32)
  | assign (e : BitVec 32)
  deriving DecidableEq, Repr

def ErrnoStore.code : ErrnoStore → BitVec 32
  | .failedCall e | .assign e => e

def ErrnoStore.assigned : ErrnoStore → Option (BitVec 32)
  | .failedCall _ => none
  | .assign e => some e

def apply (w : World) : ErrnoStore → World
  | .failedCall e => (zCerrorNocancel w e).1
  | .assign e => assignErrno w e

def run (w : World) (ops : List ErrnoStore) : World := ops.foldl apply w

/-- The running thread's record is at `t` and its errno slot points at `err_no`. -/
structure OwnsErrno (w : World) (t : ℕ) : Prop where
  base : w.gs = t + threadShape.offset .tsd
  slot : zTsdGetDirect w tsdErrno = BitVec.ofNat 64 (t + threadShape.offset .errNo)
  fits : t + threadShape.bytes ≤ 2 ^ 64

/-- After `ops`, `z_errno` is the last code stored and every other field is as before. -/
structure Faithful (w : World) (t : ℕ) (ops : List ErrnoStore) : Prop where
  reads : ∀ o, ops.getLast? = some o → readErrno (run w ops) = o.code.signExtend 64
  frame : ∀ f, f ≠ .errNo → threadShape.read (run w ops).mem t f = threadShape.read w.mem t f

def lowStackaddr (m : Memory) (t : ℕ) : BitVec 32 :=
  loadWord 32 m (t + threadShape.offset .stackaddr)

def signHalf (e : BitVec 32) : BitVec 32 := if e.msb then BitVec.allOnes 32 else 0

def lastAssigned (ops : List ErrnoStore) : Option (BitVec 32) :=
  (ops.filterMap ErrnoStore.assigned).getLast?

theorem signExtend_halves (e : BitVec 32) : e.signExtend 64 = signHalf e ++ e := by
  rw [BitVec.signExtend_eq_append_of_le (by decide)]
  rfl

theorem append_halves {a b c d : BitVec 32} (h : a ++ b = c ++ d) : a = c ∧ b = d := by
  have hb : b = d := by
    have := congrArg (BitVec.setWidth 32) h
    rwa [BitVec.setWidth_append_eq_right, BitVec.setWidth_append_eq_right] at this
  subst hb
  exact ⟨(BitVec.append_left_inj b).mp h, rfl⟩

theorem loadWord_halves (m : Memory) (a : ℕ) :
    loadWord 64 m a = loadWord 32 m (a + 4) ++ loadWord 32 m a :=
  loadWord_append m a (v := 32) (w := 32) rfl rfl

variable {w : World} {t : ℕ}

def errnoAddr (t : ℕ) : ℕ := t + threadShape.offset .errNo

theorem offset_errNo : threadShape.offset .errNo = 172 := by decide
theorem offset_stackaddr : threadShape.offset .stackaddr = 176 := by decide
theorem offset_tsd : threadShape.offset .tsd = 224 := by decide +kernel

theorem lowStackaddr_eq (m : Memory) (t : ℕ) :
    lowStackaddr m t = loadWord 32 m (errnoAddr t + 4) := by
  simp [lowStackaddr, errnoAddr, offset_stackaddr, offset_errNo, Nat.add_assoc]

theorem errnoAddr_lt (h : OwnsErrno w t) : errnoAddr t < 2 ^ 64 := by
  have hb : 172 < threadShape.bytes := by decide +kernel
  have := h.fits
  rw [errnoAddr, offset_errNo]
  omega

theorem zPerrno_eq (h : OwnsErrno w t) : zPerrno w = .tsd (BitVec.ofNat 64 (errnoAddr t)) := by
  have hlt := errnoAddr_lt h
  have hne : zTsdGetDirect w tsdErrno ≠ 0 := by
    rw [h.slot]
    intro h0
    have := congrArg BitVec.toNat h0
    rw [BitVec.toNat_ofNat] at this
    unfold errnoAddr at hlt
    rw [offset_errNo] at this hlt
    simp only [BitVec.ofNat_eq_ofNat, BitVec.toNat_ofNat] at this
    omega
  rw [zPerrno, if_pos hne, h.slot]
  rfl

theorem readErrno_eq (h : OwnsErrno w t) :
    readErrno w = lowStackaddr w.mem t ++ loadWord 32 w.mem (errnoAddr t) := by
  rw [readErrno, zPerrno_eq h]
  simp only [BitVec.toNat_ofNat, Nat.mod_eq_of_lt (errnoAddr_lt h)]
  rw [loadWord_halves, lowStackaddr_eq]

/-- What one store does to the record: only the eight bytes from `err_no` on can change. -/
structure StoreEffect (w w' : World) (t : ℕ) (o : ErrnoStore) : Prop where
  gs : w'.gs = w.gs
  outside : ∀ x, x < errnoAddr t ∨ errnoAddr t + 8 ≤ x → w'.mem x = w.mem x
  cell : loadWord 32 w'.mem (errnoAddr t) = o.code
  low : lowStackaddr w'.mem t = (o.assigned.map signHalf).getD (lowStackaddr w.mem t)

theorem apply_effect (h : OwnsErrno w t) (o : ErrnoStore) : StoreEffect w (apply w o) t o := by
  have hlt := errnoAddr_lt h
  cases o with
  | failedCall e =>
    have hm : (apply w (.failedCall e)).mem = storeWord w.mem (errnoAddr t) e := by
      have hp := zPerrno_eq h
      unfold zPerrno at hp
      split_ifs at hp with hne
      simp only [ErrnoPtr.tsd.injEq] at hp
      have hs : zTsdGetDirect { w with errnoGlobal := e.signExtend 64 } tsdErrno =
        zTsdGetDirect w tsdErrno := rfl
      simp only [apply, zCerrorNocancel, hs]
      rw [if_pos hne, hp, BitVec.toNat_ofNat, Nat.mod_eq_of_lt hlt]
    refine ⟨?_, ?_, ?_, ?_⟩
    · simp only [apply, zCerrorNocancel]
      split_ifs <;> rfl
    · intro x hx
      rw [hm]
      exact storeWord_outside (by omega)
    · rw [hm]
      exact loadWord_storeWord_same w.mem _ e rfl
    · rw [lowStackaddr_eq, hm, loadWord_storeWord_disjoint (by omega), ← lowStackaddr_eq]
      rfl
  | assign e =>
    have hm : (apply w (.assign e)).mem = storeWord w.mem (errnoAddr t) (e.signExtend 64) := by
      simp only [apply, assignErrno, zPerrno_eq h, BitVec.toNat_ofNat, Nat.mod_eq_of_lt hlt]
    have hload : loadWord 64 (apply w (.assign e)).mem (errnoAddr t) = e.signExtend 64 := by
      rw [hm]
      exact loadWord_storeWord_same w.mem _ _ rfl
    rw [loadWord_halves, signExtend_halves] at hload
    obtain ⟨hhigh, hcell⟩ := append_halves hload
    refine ⟨?_, ?_, hcell, ?_⟩
    · simp only [apply, assignErrno, zPerrno_eq h]
    · intro x hx
      rw [hm]
      exact storeWord_outside (by omega)
    · rw [lowStackaddr_eq]
      exact hhigh

theorem owns_of_effect {w' : World} {o : ErrnoStore} (h : OwnsErrno w t)
    (he : StoreEffect w w' t o) : OwnsErrno w' t := by
  refine ⟨he.gs.trans h.base, ?_, h.fits⟩
  rw [← h.slot]
  unfold zTsdGetDirect
  rw [he.gs]
  apply loadWord_congr
  intro i _
  apply he.outside
  have := h.base
  rw [offset_tsd] at this
  rw [errnoAddr, offset_errNo, tsdErrno]
  omega

structure RunEffect (w w' : World) (t : ℕ) (ops : List ErrnoStore) : Prop where
  owns : OwnsErrno w' t
  outside : ∀ x, x < errnoAddr t ∨ errnoAddr t + 8 ≤ x → w'.mem x = w.mem x
  cell : ∀ o, ops.getLast? = some o → loadWord 32 w'.mem (errnoAddr t) = o.code
  low : lowStackaddr w'.mem t = ((lastAssigned ops).map signHalf).getD (lowStackaddr w.mem t)

theorem run_effect (h : OwnsErrno w t) (ops : List ErrnoStore) :
    RunEffect w (run w ops) t ops := by
  induction ops using List.reverseRecOn with
  | nil => exact ⟨h, fun _ _ => rfl, by simp, rfl⟩
  | append_singleton ops o ih =>
    have hstep := apply_effect ih.owns o
    have hrun : run w (ops ++ [o]) = apply (run w ops) o := by simp [run]
    rw [hrun]
    refine ⟨owns_of_effect ih.owns hstep, ?_, ?_, ?_⟩
    · intro x hx
      rw [hstep.outside x hx, ih.outside x hx]
    · intro o' ho
      rw [hstep.cell]
      simp at ho
      rw [ho]
    · rw [hstep.low, ih.low]
      cases o <;> simp [lastAssigned, ErrnoStore.assigned, List.filterMap_append]

/-- The upper half that each store writes, or leaves, is the one already there. -/
def SignHalvesMatch (m : Memory) (t : ℕ) (ops : List ErrnoStore) : Prop :=
  (∀ o, ops.getLast? = some o → signHalf o.code = lowStackaddr m t) ∧
  ∀ e, lastAssigned ops = some e → signHalf e = lowStackaddr m t

theorem low_eq_of_match {w' : World} {ops : List ErrnoStore} (h : RunEffect w w' t ops)
    (hm : SignHalvesMatch w.mem t ops) : lowStackaddr w'.mem t = lowStackaddr w.mem t := by
  rw [h.low]
  cases hl : lastAssigned ops with
  | none => rfl
  | some e => exact hm.2 e hl

theorem fields_kept {w' : World} {ops : List ErrnoStore} (h : RunEffect w w' t ops)
    (hlow : lowStackaddr w'.mem t = lowStackaddr w.mem t) (f : ThreadField) (hf : f ≠ .errNo) :
    threadShape.read w'.mem t f = threadShape.read w.mem t f := by
  apply load_congr
  intro i hi
  by_cases hs : f = .stackaddr
  · subst hs
    by_cases h4 : i < 4
    · exact load_inj (load_eq_of_loadWord_eq (w := 32) rfl hlow) i h4
    · apply h.outside
      rw [errnoAddr, offset_errNo, offset_stackaddr]
      omega
  · apply h.outside
    have he := threadShape.disjoint hf
    have ha := threadShape.disjoint hs
    rw [offset_errNo] at he
    rw [offset_stackaddr] at ha
    have h4 : threadShape.size .errNo = 4 := rfl
    have h8 : threadShape.size .stackaddr = 8 := rfl
    rw [errnoAddr, offset_errNo]
    omega

theorem low_of_faithful {ops : List ErrnoStore} (hf : Faithful w t ops) :
    lowStackaddr (run w ops).mem t = lowStackaddr w.mem t := by
  apply loadWord_congr
  intro i hi
  exact load_inj (hf.frame .stackaddr (by decide)) i (Nat.lt_trans hi (by decide))

/-- The errno cell behaves exactly when the last code stored, and the last one assigned
through `z_errno`, sign-extend to what the low half of `stackaddr` already is. -/
theorem errno_faithful_iff (h : OwnsErrno w t) (ops : List ErrnoStore) :
    Faithful w t ops ↔ SignHalvesMatch w.mem t ops := by
  have hrun := run_effect h ops
  constructor
  · intro hf
    have hlow := low_of_faithful hf
    constructor
    · intro o ho
      have hr := hf.reads o ho
      rw [readErrno_eq hrun.owns, hrun.cell o ho, signExtend_halves] at hr
      rw [← hlow, (append_halves hr).1]
    · intro e he
      rw [← hlow, hrun.low, he]
      rfl
  · intro hm
    have hlow := low_eq_of_match hrun hm
    refine ⟨fun o ho => ?_, fields_kept hrun hlow⟩
    rw [readErrno_eq hrun.owns, hrun.cell o ho, hlow, ← hm.1 o ho, signExtend_halves]

/-- The two stores of `z_pthread_struct_init` that errno and its neighbour depend on. -/
def initRecord (m : Memory) (t : ℕ) (stackaddr : BitVec 64) : Memory :=
  storeWord
    (storeWord m (t + threadShape.offset .tsd + tsdErrno * 8) (BitVec.ofNat 64 (errnoAddr t)))
    (t + threadShape.offset .stackaddr) stackaddr

theorem owns_initRecord (m : Memory) (stackaddr g : BitVec 64)
    (hfit : t + threadShape.bytes ≤ 2 ^ 64) :
    OwnsErrno ⟨initRecord m t stackaddr, t + threadShape.offset .tsd, g⟩ t := by
  refine ⟨rfl, ?_, hfit⟩
  simp only [zTsdGetDirect, initRecord, tsdErrno]
  rw [loadWord_storeWord_disjoint (by rw [offset_tsd, offset_stackaddr]; omega),
    loadWord_storeWord_same _ _ _ rfl, errnoAddr]

theorem lowStackaddr_initRecord (m : Memory) (t : ℕ) (stackaddr : BitVec 64) :
    lowStackaddr (initRecord m t stackaddr) t = stackaddr.setWidth 32 := by
  have hload : loadWord 64 (initRecord m t stackaddr) (t + threadShape.offset .stackaddr) =
      stackaddr := loadWord_storeWord_same _ _ _ rfl
  rw [loadWord_halves] at hload
  have := congrArg (BitVec.setWidth 32) hload
  rwa [BitVec.setWidth_append_eq_right] at this

/-- A stack that starts at a multiple of 2 ^ 32 and positive codes: nothing is lost. -/
theorem errno_faithful_round_stack :
    Faithful ⟨initRecord (fun _ => 0) 4096 0x700000000000, 4096 + threadShape.offset .tsd, 0⟩ 4096
      [.assign 9, .failedCall 22] := by
  refine (errno_faithful_iff (owns_initRecord _ _ _ (by decide +kernel)) _).mpr ?_
  unfold SignHalvesMatch
  rw [lowStackaddr_initRecord]
  constructor
  · rintro o ho
    obtain rfl : ErrnoStore.failedCall 22 = o := by simpa using ho
    decide
  · rintro e he
    obtain rfl : (9 : BitVec 32) = e := Option.some.inj he
    decide

/-- `z_errno = EINVAL` in a thread whose stack starts at `0x100130000`. -/
theorem assigned_errno_damages_stackaddr :
    ¬ ∀ (w : World) (t : ℕ) (ops : List ErrnoStore), OwnsErrno w t → Faithful w t ops := by
  intro h
  have own : OwnsErrno ⟨initRecord (fun _ => 0) 4096 0x100130000,
      4096 + threadShape.offset .tsd, 0⟩ 4096 := owns_initRecord _ _ _ (by decide +kernel)
  have hlow := low_of_faithful (h _ _ [.assign 22] own)
  rw [(run_effect own [.assign 22]).low, lowStackaddr_initRecord] at hlow
  revert hlow
  decide

end ErrnoCell

import LibSystemCall.ThreadRecord
import LibSystemCall.WordMask
import Mathlib.Order.CompletePartialOrder
import Mathlib.Order.Interval.Set.Disjoint

/-! # The mapping of a new thread

What `z_pthread_allocate` maps for a thread: a guard, the stack and the record above it. -/
namespace ThreadMapping

open ThreadRecord WordMask

/-- `z_page_size` is the power of two. -/
structure Paging where
  shift : ℕ
  small : shift < 64

def Paging.zPageSize (p : Paging) : BitVec 64 := BitVec.ofNat 64 (2 ^ p.shift)
def Paging.zPageMask (p : Paging) : BitVec 64 := p.zPageSize - 1

def PTHREAD_ATTR_SIG : BitVec 64 := 0x54484441
def PTHREAD_STACK_MIN : BitVec 64 := 8192
def PTHREAD_T_OFFSET : BitVec 64 := 0
def DEFAULT_STACK_SIZE : BitVec 64 := 512 * 1024
def PTHREAD_CREATE_JOINABLE : BitVec 8 := 1
def MAP_FAILED : BitVec 64 := -1
def EINVAL : ℕ := 22
def EAGAIN : ℕ := 35

/-- The mask goes through a `signed`. -/
def vmRoundPage (p : Paging) (x : BitVec 64) : BitVec 64 :=
  (x + p.zPageMask) &&& (~~~p.zPageMask.setWidth 32).signExtend 64

/-- `(z_uint32)vm_round_page(sizeof(struct z_pthread_t))` -/
def PTHREAD_SIZE (p : Paging) : BitVec 64 :=
  ((vmRoundPage p (BitVec.ofNat 64 threadShape.bytes)).setWidth 32).setWidth 64

structure Attr where
  sig : BitVec 64
  guardsize : BitVec 64
  stackaddr : BitVec 64
  stacksize : BitVec 64
  detached : BitVec 8
  defaultguardpage : Bool

def zPthreadAttrDefault : Attr := ⟨PTHREAD_ATTR_SIG, 0, 0, 0, PTHREAD_CREATE_JOINABLE, true⟩

structure Thread where
  addr : BitVec 64
  tlHasCustomStack : Bool
  stackaddr : BitVec 64
  stackbottom : BitVec 64
  freeaddr : BitVec 64
  freesize : BitVec 64
  guardsize : BitVec 64
  tlJoinable : Bool

def zPthreadAttrGuardsize (p : Paging) (attr : Attr) : BitVec 64 :=
  if attr.defaultguardpage then p.zPageSize else attr.guardsize

def zPthreadAttrStacksize (attr : Attr) : BitVec 64 :=
  if attr.stacksize ≠ 0 then attr.stacksize else DEFAULT_STACK_SIZE

def zPthreadStructInit (p : Paging) (t : BitVec 64) (attrs : Attr)
    (stackaddr stacksize freeaddr freesize : BitVec 64) : Thread where
  addr := t
  tlHasCustomStack := attrs.stackaddr ≠ 0
  stackaddr := stackaddr
  stackbottom := stackaddr - stacksize
  freeaddr := freeaddr
  freesize := freesize
  guardsize := zPthreadAttrGuardsize p attrs
  tlJoinable := attrs.detached = PTHREAD_CREATE_JOINABLE

structure Sizes where
  allocsize : BitVec 64
  guardsize : BitVec 64
  pthreadoff : BitVec 64
  stacksize : BitVec 64

def sizesOf (p : Paging) (attrs : Attr) : Sizes :=
  if attrs.stackaddr ≠ 0 then ⟨PTHREAD_SIZE p, 0, 0, attrs.stacksize⟩
  else
    let guardsize := zPthreadAttrGuardsize p attrs
    let stacksize := zPthreadAttrStacksize attrs + PTHREAD_T_OFFSET
    let pthreadoff := stacksize + guardsize
    ⟨vmRoundPage p (pthreadoff + PTHREAD_SIZE p), guardsize, pthreadoff, stacksize⟩

/-- What `z_mmap` and `z_mprotect` were given and returned, and the thread; the length for
`z_mprotect` is an int. -/
structure Allocation where
  addr : BitVec 64
  size : BitVec 64
  guard : Option (BitVec 64 × BitVec 32)
  thread : Thread

def allocatedAt (p : Paging) (attrs : Attr) (allocaddr : BitVec 64) : Allocation :=
  let sizes := sizesOf p attrs
  let guard :=
    if sizes.guardsize ≠ 0 then some (allocaddr, sizes.guardsize.setWidth 32) else none
  let t := allocaddr + sizes.pthreadoff
  let stack := if attrs.stackaddr ≠ 0 then attrs.stackaddr else t
  ⟨allocaddr, sizes.allocsize, guard,
    zPthreadStructInit p t attrs stack sizes.stacksize allocaddr sizes.allocsize⟩

/-- `mmap` is the answer of `z_mmap` to a length. -/
def zPthreadAllocate (p : Paging) (mmap : BitVec 64 → BitVec 64) (attrs : Attr) :
    Option Allocation :=
  if attrs.stacksize ≠ 0 ∧ attrs.stacksize < PTHREAD_STACK_MIN then none
  else if attrs.stackaddr % p.zPageSize ≠ 0 then none
  else
    let allocaddr := mmap (sizesOf p attrs).allocsize
    if allocaddr = MAP_FAILED ∨ allocaddr = 0 then none
    else some (allocatedAt p attrs allocaddr)

def effective (attrs : Option Attr) : Attr := attrs.getD zPthreadAttrDefault

/-- Up to the system call that starts the thread. -/
def zPthreadCreateInternal (p : Paging) (mmap : BitVec 64 → BitVec 64) (attrs : Option Attr) :
    Except ℕ Allocation :=
  if ∃ attr, attrs = some attr ∧ attr.sig ≠ PTHREAD_ATTR_SIG then .error EINVAL
  else
    match zPthreadAllocate p mmap (effective attrs) with
    | none => .error EAGAIN
    | some a => .ok a

def Allocation.mapping (a : Allocation) : Set ℕ :=
  Set.Ico a.addr.toNat (a.addr.toNat + a.size.toNat)

def Allocation.guarded (a : Allocation) : Set ℕ :=
  Set.Ico a.addr.toNat (a.addr.toNat + a.thread.guardsize.toNat)

def Thread.stack (t : Thread) : Set ℕ := Set.Ico t.stackbottom.toNat t.stackaddr.toNat

def Thread.record (t : Thread) : Set ℕ :=
  Set.Ico t.addr.toNat (t.addr.toNat + threadShape.bytes)

/-- `z_mprotect` is given just the guard, and is not called where there is none. -/
def Allocation.Protects (a : Allocation) : Prop :=
  match a.guard with
  | none => a.thread.guardsize = 0
  | some (addr, length) => addr = a.addr ∧ length.toInt = a.thread.guardsize.toNat

structure LaidOut (a : Allocation) : Prop where
  guardStack : Disjoint a.guarded a.thread.stack
  guardRecord : Disjoint a.guarded a.thread.record
  stackRecord : Disjoint a.thread.stack a.thread.record
  guardInside : a.guarded ⊆ a.mapping
  stackInside : a.thread.stack ⊆ a.mapping
  recordInside : a.thread.record ⊆ a.mapping
  atStackEnd : a.thread.addr = a.thread.stackaddr
  protects : a.Protects

def neededSize (p : Paging) (attrs : Attr) : ℕ :=
  (zPthreadAttrGuardsize p attrs).toNat + (zPthreadAttrStacksize attrs).toNat +
    (PTHREAD_SIZE p).toNat

structure Representable (p : Paging) (attrs : Attr) : Prop where
  page : p.shift < 32
  guard : (zPthreadAttrGuardsize p attrs).toNat < 2 ^ 31
  sum : neededSize p attrs + (2 ^ p.shift - 1) < 2 ^ 64

theorem zPageMask_eq (p : Paging) : p.zPageMask = lowMask 64 p.shift := by
  have hpos := Nat.two_pow_pos p.shift
  have hlt : 2 ^ p.shift < 2 ^ 64 := Nat.pow_lt_pow_right (by decide) p.small
  apply BitVec.eq_of_toNat_eq
  rw [toNat_lowMask p.small.le, Paging.zPageMask, Paging.zPageSize, BitVec.toNat_sub,
    BitVec.toNat_ofNat]
  change (2 ^ 64 - 1 + 2 ^ p.shift % 2 ^ 64) % 2 ^ 64 = _
  omega

theorem vmRoundPage_eq (p : Paging) (x : BitVec 64) :
    vmRoundPage p x =
      if p.shift < 32 then (x + lowMask 64 p.shift) &&& ~~~lowMask 64 p.shift else 0 := by
  rw [vmRoundPage, zPageMask_eq, signExtend_not_lowMask (by decide) (by decide)]
  split
  · rfl
  · exact BitVec.and_zero

theorem bytes_eq : threadShape.bytes = 6368 := by decide +kernel

theorem PTHREAD_SIZE_rounded {p : Paging} (h : p.shift < 32) :
    RoundedUp p.shift threadShape.bytes (PTHREAD_SIZE p).toNat := by
  have hpow : 2 ^ p.shift ≤ 2 ^ 31 := Nat.pow_le_pow_right (by decide) (by omega)
  have hbytes : (BitVec.ofNat 64 threadShape.bytes).toNat = threadShape.bytes := by
    rw [bytes_eq]
    rfl
  have hround : RoundedUp p.shift threadShape.bytes
      (vmRoundPage p (BitVec.ofNat 64 threadShape.bytes)).toNat := by
    rw [vmRoundPage_eq, if_pos h]
    have hup := roundedUp p.small.le (x := BitVec.ofNat 64 threadShape.bytes) (by
      rw [hbytes, bytes_eq]
      omega)
    rwa [hbytes] at hup
  have hnarrow : (PTHREAD_SIZE p).toNat =
      (vmRoundPage p (BitVec.ofNat 64 threadShape.bytes)).toNat := by
    have hlt := hround.lt
    rw [bytes_eq] at hlt
    rw [PTHREAD_SIZE, BitVec.toNat_setWidth, BitVec.toNat_setWidth]
    rw [bytes_eq]
    omega
  rw [hnarrow]
  exact hround

variable {p : Paging} {mmap : BitVec 64 → BitVec 64} {attrs : Option Attr} {a : Allocation}

theorem created_allocated (h : zPthreadCreateInternal p mmap attrs = .ok a) :
    zPthreadAllocate p mmap (effective attrs) = some a := by
  unfold zPthreadCreateInternal at h
  split at h
  · cases h
  · split at h
    · cases h
    · next a' halloc =>
      obtain rfl := Except.ok.inj h
      exact halloc

theorem allocated_eq {attr : Attr} (h : zPthreadAllocate p mmap attr = some a) :
    ∃ allocaddr, a = allocatedAt p attr allocaddr ∧
      (attr.stacksize ≠ 0 → PTHREAD_STACK_MIN ≤ attr.stacksize) := by
  unfold zPthreadAllocate at h
  dsimp only at h
  split at h
  · cases h
  · next hsize =>
    split at h
    · cases h
    · split at h
      · cases h
      · refine ⟨_, (Option.some.inj h).symm, ?_⟩
        intro hne
        exact BitVec.not_lt.mp fun hlt => hsize ⟨hne, hlt⟩

theorem stacksize_min {attr : Attr}
    (h : attr.stacksize ≠ 0 → PTHREAD_STACK_MIN ≤ attr.stacksize) :
    8192 ≤ (zPthreadAttrStacksize attr).toNat := by
  unfold zPthreadAttrStacksize
  split
  · next hne => exact h hne
  · decide

structure OwnStack (p : Paging) (attr : Attr) (a : Allocation) : Prop where
  size : a.size = vmRoundPage p
    (zPthreadAttrStacksize attr + zPthreadAttrGuardsize p attr + PTHREAD_SIZE p)
  addr : a.thread.addr = a.addr + (zPthreadAttrStacksize attr + zPthreadAttrGuardsize p attr)
  stackaddr : a.thread.stackaddr = a.thread.addr
  stackbottom : a.thread.stackbottom = a.thread.addr - zPthreadAttrStacksize attr
  guardsize : a.thread.guardsize = zPthreadAttrGuardsize p attr
  guard : a.guard = if zPthreadAttrGuardsize p attr ≠ 0 then
    some (a.addr, (zPthreadAttrGuardsize p attr).setWidth 32) else none
  freeaddr : a.thread.freeaddr = a.addr
  freesize : a.thread.freesize = a.size
  atLeast : 8192 ≤ (zPthreadAttrStacksize attr).toNat

theorem allocated_own {attr : Attr} (h : zPthreadAllocate p mmap attr = some a)
    (hstack : attr.stackaddr = 0) : OwnStack p attr a := by
  obtain ⟨allocaddr, rfl, hsize⟩ := allocated_eq h
  have hown : ¬attr.stackaddr ≠ 0 := not_not_intro hstack
  have hsizes : sizesOf p attr =
      ⟨vmRoundPage p (zPthreadAttrStacksize attr + zPthreadAttrGuardsize p attr +
          PTHREAD_SIZE p),
        zPthreadAttrGuardsize p attr, zPthreadAttrStacksize attr + zPthreadAttrGuardsize p attr,
        zPthreadAttrStacksize attr⟩ := by
    have hoffset : zPthreadAttrStacksize attr + PTHREAD_T_OFFSET = zPthreadAttrStacksize attr :=
      BitVec.add_zero _
    rw [sizesOf, if_neg hown, hoffset]
  unfold allocatedAt
  dsimp only
  rw [hsizes, if_neg hown]
  exact ⟨rfl, rfl, rfl, rfl, rfl, rfl, rfl, rfl, stacksize_min hsize⟩

structure Nested (a : Allocation) (guard stack : ℕ) : Prop where
  addr : a.thread.addr.toNat = a.addr.toNat + guard + stack
  stackbottom : a.thread.stackbottom.toNat = a.addr.toNat + guard
  room : guard + stack + threadShape.bytes ≤ a.size.toNat

theorem OwnStack.nested {attr : Attr} (h : OwnStack p attr a) (hpage : p.shift < 32)
    (hsum : neededSize p attr + (2 ^ p.shift - 1) < 2 ^ 64)
    (hend : a.addr.toNat + a.size.toNat < 2 ^ 64) :
    Nested a (zPthreadAttrGuardsize p attr).toNat (zPthreadAttrStacksize attr).toNat := by
  have hrecord := PTHREAD_SIZE_rounded hpage
  have hsize := h.size
  have haddr := h.addr
  have hbottom := h.stackbottom
  unfold neededSize at hsum
  rw [vmRoundPage_eq, if_pos hpage] at hsize
  have htotal : (zPthreadAttrStacksize attr + zPthreadAttrGuardsize p attr +
      PTHREAD_SIZE p).toNat = (zPthreadAttrStacksize attr).toNat +
        (zPthreadAttrGuardsize p attr).toNat + (PTHREAD_SIZE p).toNat := by
    rw [BitVec.toNat_add, BitVec.toNat_add]
    omega
  have hround := roundedUp p.small.le (x := zPthreadAttrStacksize attr +
    zPthreadAttrGuardsize p attr + PTHREAD_SIZE p) (by omega)
  rw [← hsize, htotal] at hround
  have hroom := hround.le
  have hle := hrecord.le
  have hat : a.thread.addr.toNat = a.addr.toNat + (zPthreadAttrGuardsize p attr).toNat +
      (zPthreadAttrStacksize attr).toNat := by
    rw [haddr, BitVec.toNat_add, BitVec.toNat_add]
    omega
  refine ⟨hat, ?_, by omega⟩
  rw [hbottom, BitVec.toNat_sub, hat]
  omega

theorem protects_iff {attr : Attr} (h : OwnStack p attr a) :
    a.Protects ↔ (zPthreadAttrGuardsize p attr).toNat < 2 ^ 31 := by
  have hguard := h.guard
  have hsize := h.guardsize
  generalize zPthreadAttrGuardsize p attr = guardsize at *
  have hnarrow : (guardsize.setWidth 32).toInt =
      if 2 * (guardsize.toNat % 2 ^ 32) < 2 ^ 32 then ((guardsize.toNat % 2 ^ 32 : ℕ) : ℤ)
      else ((guardsize.toNat % 2 ^ 32 : ℕ) : ℤ) - (2 ^ 32 : ℕ) := by
    rw [BitVec.toInt_eq_toNat_cond, BitVec.toNat_setWidth]
  unfold Allocation.Protects
  rw [hguard, hsize]
  by_cases hzero : guardsize = 0
  · rw [if_neg (not_not_intro hzero), hzero]
    simp
  · rw [if_pos hzero]
    dsimp only
    rw [hnarrow]
    constructor
    · rintro ⟨-, hlength⟩
      split at hlength <;> omega
    · intro hlt
      refine ⟨rfl, ?_⟩
      split <;> omega

theorem OwnStack.placed {attr : Attr} (h : OwnStack p attr a) (hpage : p.shift < 32)
    (hsum : neededSize p attr + (2 ^ p.shift - 1) < 2 ^ 64)
    (hend : a.addr.toNat + a.size.toNat < 2 ^ 64) :
    a.thread.stack ⊆ a.mapping ∧ a.thread.record ⊆ a.mapping ∧
      Disjoint a.thread.stack a.thread.record := by
  obtain ⟨haddr, hbottom, hroom⟩ := h.nested hpage hsum hend
  have htop := congrArg BitVec.toNat h.stackaddr
  refine ⟨?_, ?_, ?_⟩
  · apply Set.Ico_subset_Ico <;> omega
  · apply Set.Ico_subset_Ico <;> omega
  · apply Set.Ico_disjoint_Ico.mpr
    omega

theorem OwnStack.laidOut {attr : Attr} (h : OwnStack p attr a) (hfits : Representable p attr)
    (hend : a.addr.toNat + a.size.toNat < 2 ^ 64) : LaidOut a := by
  obtain ⟨haddr, hbottom, hroom⟩ := h.nested hfits.page hfits.sum hend
  obtain ⟨hstack, hrecord, hapart⟩ := h.placed hfits.page hfits.sum hend
  have hguard := congrArg BitVec.toNat h.guardsize
  have htop := congrArg BitVec.toNat h.stackaddr
  refine ⟨?_, ?_, hapart, ?_, hstack, hrecord, h.stackaddr.symm,
    (protects_iff h).mpr hfits.guard⟩
  · apply Set.Ico_disjoint_Ico.mpr
    omega
  · apply Set.Ico_disjoint_Ico.mpr
    omega
  · apply Set.Ico_subset_Ico
    · exact le_refl _
    · omega

theorem record_at (t : Thread) : t.addr.toNat ∈ t.record := by
  have := bytes_eq
  constructor
  · exact le_refl _
  · omega

/-- Where the sum of the sizes wraps, the record is in the guard or outside the mapping. -/
theorem OwnStack.sum_fits {attr : Attr} (h : OwnStack p attr a) (hpage : p.shift < 32)
    (hlaid : LaidOut a) : neededSize p attr + (2 ^ p.shift - 1) < 2 ^ 64 := by
  have hpow : 2 ^ p.shift ≤ 2 ^ 31 := Nat.pow_le_pow_right (by decide) (by omega)
  have hrecord := PTHREAD_SIZE_rounded hpage
  have hlt := hrecord.lt
  have hbytes := bytes_eq
  have hguard := h.guardsize
  have hsize := h.size
  have haddr := congrArg BitVec.toNat h.addr
  have hinside := hlaid.recordInside (record_at a.thread)
  have hapart := Set.disjoint_right.mp hlaid.guardRecord (record_at a.thread)
  rw [vmRoundPage_eq, if_pos hpage] at hsize
  have hrounded := toNat_clear p.small.le (zPthreadAttrStacksize attr +
    zPthreadAttrGuardsize p attr + PTHREAD_SIZE p + lowMask 64 p.shift)
  rw [← hsize, BitVec.toNat_add, BitVec.toNat_add, BitVec.toNat_add,
    toNat_lowMask p.small.le] at hrounded
  rw [BitVec.toNat_add, BitVec.toNat_add] at haddr
  simp only [Allocation.mapping, Allocation.guarded, Set.mem_Ico, hguard] at hinside hapart
  unfold neededSize
  by_contra hwraps
  have := a.addr.isLt
  have := (zPthreadAttrStacksize attr).isLt
  have := (zPthreadAttrGuardsize p attr).isLt
  generalize 2 ^ p.shift = page at *
  have hle := Nat.mod_le ((((zPthreadAttrStacksize attr).toNat +
    (zPthreadAttrGuardsize p attr).toNat) % 2 ^ 64 + (PTHREAD_SIZE p).toNat) % 2 ^ 64 +
      (page - 1)) (2 ^ 64)
  omega

theorem OwnStack.page_small {attr : Attr} (h : OwnStack p attr a) (hlaid : LaidOut a) :
    p.shift < 32 := by
  by_contra hlarge
  have hinside := hlaid.recordInside (record_at a.thread)
  have hsize := h.size
  rw [vmRoundPage_eq, if_neg hlarge] at hsize
  simp only [Allocation.mapping, hsize, Set.mem_Ico] at hinside
  exact absurd hinside.2 (by simpa using hinside.1)

/-- A thread with a stack of the library is laid out as it should be exactly if a page is less
than 4 GiB, the guard less than 2 GiB and no sum of the sizes wraps. -/
theorem laidOut_iff (hcreate : zPthreadCreateInternal p mmap attrs = .ok a)
    (hstack : (effective attrs).stackaddr = 0)
    (hend : a.addr.toNat + a.size.toNat < 2 ^ 64) :
    LaidOut a ↔ Representable p (effective attrs) := by
  have hown := allocated_own (created_allocated hcreate) hstack
  constructor
  · intro hlaid
    have hpage := hown.page_small hlaid
    exact ⟨hpage, (protects_iff hown).mp hlaid.protects, hown.sum_fits hpage hlaid⟩
  · intro hfits
    exact hown.laidOut hfits hend

/-- 4 KiB pages, and what the default attributes get for a mapping at 0x10002C000. -/
def smallPages : Paging := ⟨12, by decide⟩

def defaultThread : Allocation := allocatedAt smallPages zPthreadAttrDefault 0x10002C000

theorem laidOut_default : LaidOut defaultThread := by
  have hcreate : zPthreadCreateInternal smallPages (fun _ => 0x10002C000) none =
      .ok defaultThread := rfl
  exact (laidOut_iff hcreate rfl (by decide +kernel)).mpr
    ⟨by decide, by decide +kernel, by decide +kernel⟩

/-- A guard of 2 GiB. -/
def guardedAttr : Attr := ⟨PTHREAD_ATTR_SIG, 0x80000000, 0, 0, PTHREAD_CREATE_JOINABLE, false⟩

theorem wide_guard_not_protected :
    ∃ a, zPthreadCreateInternal smallPages (fun _ => 0x10002C000) (some guardedAttr) = .ok a ∧
      a.addr.toNat + a.size.toNat < 2 ^ 64 ∧ ¬LaidOut a := by
  refine ⟨allocatedAt smallPages guardedAttr 0x10002C000, rfl, by decide +kernel, ?_⟩
  intro hlaid
  exact absurd hlaid.protects.2 (by decide +kernel)

end ThreadMapping

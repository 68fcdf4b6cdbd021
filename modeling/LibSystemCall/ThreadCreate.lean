import LibSystemCall.ThreadUnmapping

/-! # z_pthread_create_internal with its system call

The flags that tell the kernel how to schedule the thread, and the way back when
`z_bsdthread_create` fails. -/
namespace ThreadCreate

open ThreadMapping ThreadUnmapping

def PTHREAD_CREATE_SUSPENDED : BitVec 32 := 0x2

def PTHREAD_START_CUSTOM : BitVec 32 := 0x01000000
def PTHREAD_START_SETSCHED : BitVec 32 := 0x02000000
def PTHREAD_START_QOSCLASS : BitVec 32 := 0x08000000
def PTHREAD_START_SUSPENDED : BitVec 32 := 0x20000000
def PTHREAD_START_QOSCLASS_MASK : BitVec 64 := 0x00ffffff
def PTHREAD_START_POLICY_BITSHIFT : ℕ := 16
def PTHREAD_START_POLICY_MASK : BitVec 32 := 0xff
def PTHREAD_START_IMPORTANCE_MASK : BitVec 32 := 0xffff

/-- The attributes with their scheduling part. `qosclass` is one union with `param`, whose low
half is `sched_priority`. -/
structure SchedAttr extends Attr where
  qosclass : BitVec 64
  policy : BitVec 8
  schedset : Bool

/-- The default ones carry the legacy class and priority -1. -/
def schedAttrDefault : SchedAttr := ⟨zPthreadAttrDefault, 0x8ff, 1, false⟩

def SchedAttr.schedPriority (attrs : SchedAttr) : BitVec 32 := attrs.qosclass.setWidth 32

def startFlags (attrs : SchedAttr) (createFlags : BitVec 32) : BitVec 32 :=
  let flags := PTHREAD_START_CUSTOM
  let flags :=
    if attrs.schedset then
      flags ||| PTHREAD_START_SETSCHED
        ||| (attrs.policy.setWidth 32 &&& PTHREAD_START_POLICY_MASK) <<<
          PTHREAD_START_POLICY_BITSHIFT
        ||| attrs.schedPriority &&& PTHREAD_START_IMPORTANCE_MASK
    else if attrs.qosclass ≠ 0 then
      flags ||| PTHREAD_START_QOSCLASS
        ||| (attrs.qosclass &&& PTHREAD_START_QOSCLASS_MASK).setWidth 32
    else flags
  if createFlags &&& PTHREAD_CREATE_SUSPENDED ≠ 0 then flags ||| PTHREAD_START_SUSPENDED else flags

theorem custom_bit : ∀ k < 32, PTHREAD_START_CUSTOM.getLsbD k = decide (k = 24) := by decide
theorem setsched_bit : ∀ k < 32, PTHREAD_START_SETSCHED.getLsbD k = decide (k = 25) := by decide
theorem qosclass_bit : ∀ k < 32, PTHREAD_START_QOSCLASS.getLsbD k = decide (k = 27) := by decide
theorem suspended_bit : ∀ k < 32, PTHREAD_START_SUSPENDED.getLsbD k = decide (k = 29) := by decide

theorem policy_mask_bit : ∀ k < 32, PTHREAD_START_POLICY_MASK.getLsbD k = decide (k < 8) := by
  decide

theorem importance_mask_bit :
    ∀ k < 32, PTHREAD_START_IMPORTANCE_MASK.getLsbD k = decide (k < 16) := by
  decide

theorem qosclass_mask_bit :
    ∀ k < 32, PTHREAD_START_QOSCLASS_MASK.getLsbD k = decide (k < 24) := by
  decide

def schedFlags (attrs : SchedAttr) : BitVec 32 :=
  if attrs.schedset then
    PTHREAD_START_SETSCHED |||
      (attrs.policy.setWidth 32 &&& PTHREAD_START_POLICY_MASK) <<< PTHREAD_START_POLICY_BITSHIFT |||
      attrs.schedPriority &&& PTHREAD_START_IMPORTANCE_MASK
  else if attrs.qosclass ≠ 0 then
    PTHREAD_START_QOSCLASS ||| (attrs.qosclass &&& PTHREAD_START_QOSCLASS_MASK).setWidth 32
  else 0

def suspendFlags (createFlags : BitVec 32) : BitVec 32 :=
  if createFlags &&& PTHREAD_CREATE_SUSPENDED ≠ 0 then PTHREAD_START_SUSPENDED else 0

theorem startFlags_eq (attrs : SchedAttr) (createFlags : BitVec 32) :
    startFlags attrs createFlags =
      PTHREAD_START_CUSTOM ||| schedFlags attrs ||| suspendFlags createFlags := by
  unfold startFlags schedFlags suspendFlags
  split_ifs <;> simp [BitVec.or_assoc]

theorem sched_bit (policy : BitVec 8) (priority : BitVec 32) {k : ℕ} (hk : k < 32) :
    (PTHREAD_START_SETSCHED |||
      (policy.setWidth 32 &&& PTHREAD_START_POLICY_MASK) <<< PTHREAD_START_POLICY_BITSHIFT |||
      priority &&& PTHREAD_START_IMPORTANCE_MASK).getLsbD k =
        if k < 16 then priority.getLsbD k
        else if k < 24 then policy.getLsbD (k - 16) else decide (k = 25) := by
  have hlow := policy_mask_bit (k - 16) (by omega)
  rw [BitVec.getLsbD_or, BitVec.getLsbD_or, BitVec.getLsbD_shiftLeft, BitVec.getLsbD_and,
    BitVec.getLsbD_and, PTHREAD_START_POLICY_BITSHIFT, hlow, setsched_bit k hk,
    importance_mask_bit k hk, BitVec.getLsbD_setWidth]
  by_cases h16 : k < 16
  · simp [h16, show k ≠ 25 by omega]
  · by_cases h24 : k < 24
    · simp [h16, h24, hk, show k ≠ 25 by omega, show k - 16 < 8 by omega,
        show k - 16 < 32 by omega]
    · simp [h16, h24, show ¬ k - 16 < 8 by omega]

theorem class_bit (qosclass : BitVec 64) {k : ℕ} (hk : k < 32) :
    (PTHREAD_START_QOSCLASS |||
      (qosclass &&& PTHREAD_START_QOSCLASS_MASK).setWidth 32).getLsbD k =
        if k < 24 then qosclass.getLsbD k else decide (k = 27) := by
  rw [BitVec.getLsbD_or, BitVec.getLsbD_setWidth, BitVec.getLsbD_and, qosclass_bit k hk,
    qosclass_mask_bit k hk]
  by_cases h24 : k < 24
  · simp [h24, hk, show k ≠ 27 by omega]
  · simp [h24]

structure StartRequest where
  setsched : Bool
  policy : BitVec 8
  importance : BitVec 16
  setclass : Bool
  qosclass : BitVec 24
  suspended : Bool
  deriving DecidableEq

def readFlags (flags : BitVec 32) : StartRequest :=
  let setsched := flags.getLsbD 25
  let setclass := flags.getLsbD 27
  { setsched := setsched
    policy := if setsched then (flags >>> 16).setWidth 8 else 0
    importance := if setsched then flags.setWidth 16 else 0
    setclass := setclass
    qosclass := if setclass then flags.setWidth 24 else 0
    suspended := flags.getLsbD 29 }

def requested (attrs : SchedAttr) (createFlags : BitVec 32) : StartRequest :=
  let setclass := !attrs.schedset && attrs.qosclass != 0
  { setsched := attrs.schedset
    policy := if attrs.schedset then attrs.policy else 0
    importance := if attrs.schedset then attrs.schedPriority.setWidth 16 else 0
    setclass := setclass
    qosclass := if setclass then attrs.qosclass.setWidth 24 else 0
    suspended := createFlags.getLsbD 1 }

theorem suspend_bit (createFlags : BitVec 32) {k : ℕ} (hk : k < 32) :
    (suspendFlags createFlags).getLsbD k = (decide (k = 29) && createFlags.getLsbD 1) := by
  have hmask : ∀ k < 32, PTHREAD_CREATE_SUSPENDED.getLsbD k = decide (k = 1) := by decide
  have hset := WordMask.and_bit_ne_zero (x := createFlags) (show 1 < 32 by decide) hmask
  unfold suspendFlags
  cases hbit : createFlags.getLsbD 1 with
  | true => rw [if_pos (hset.mpr hbit), suspended_bit k hk, Bool.and_true]
  | false =>
    rw [if_neg (fun hne => absurd (hset.mp hne) (by rw [hbit]; decide)), Bool.and_false]
    exact BitVec.getLsbD_zero

theorem startFlags_bit (attrs : SchedAttr) (createFlags : BitVec 32) {k : ℕ} (hk : k < 32) :
    (startFlags attrs createFlags).getLsbD k = (decide (k = 24) ||
      (schedFlags attrs).getLsbD k || decide (k = 29) && createFlags.getLsbD 1) := by
  rw [startFlags_eq, BitVec.getLsbD_or, BitVec.getLsbD_or, custom_bit k hk, suspend_bit _ hk]

theorem startFlags_policy (attrs : SchedAttr) (createFlags : BitVec 32)
    (hs : attrs.schedset = true) :
    (startFlags attrs createFlags >>> 16).setWidth 8 = attrs.policy ∧
      (startFlags attrs createFlags).setWidth 16 = attrs.schedPriority.setWidth 16 := by
  have hbit := fun k hk => startFlags_bit attrs createFlags (k := k) hk
  simp only [schedFlags, hs, if_true] at hbit
  constructor
  · apply BitVec.eq_of_getLsbD_eq
    intro k hk
    rw [BitVec.getLsbD_setWidth, BitVec.getLsbD_ushiftRight, hbit (16 + k) (by omega),
      sched_bit _ _ (by omega)]
    simp [hk, show 16 + k < 24 by omega, show 16 + k ≠ 24 by omega, show 16 + k ≠ 29 by omega]
  · apply BitVec.eq_of_getLsbD_eq
    intro k hk
    rw [BitVec.getLsbD_setWidth, BitVec.getLsbD_setWidth, hbit k (by omega),
      sched_bit _ _ (by omega)]
    simp [hk, show k ≠ 24 by omega, show k ≠ 29 by omega]

theorem startFlags_class (attrs : SchedAttr) (createFlags : BitVec 32)
    (hs : attrs.schedset = false) (hq : attrs.qosclass ≠ 0) :
    (startFlags attrs createFlags).setWidth 24 = attrs.qosclass.setWidth 24 := by
  have hbit := fun k hk => startFlags_bit attrs createFlags (k := k) hk
  simp only [schedFlags, hs, Bool.false_eq_true, if_false, if_pos hq] at hbit
  apply BitVec.eq_of_getLsbD_eq
  intro k hk
  rw [BitVec.getLsbD_setWidth, BitVec.getLsbD_setWidth, hbit k (by omega),
    class_bit _ (by omega)]
  simp [hk, show k ≠ 24 by omega, show k ≠ 29 by omega]

theorem startFlags_kinds (attrs : SchedAttr) (createFlags : BitVec 32) :
    (startFlags attrs createFlags).getLsbD 24 = true ∧
      (startFlags attrs createFlags).getLsbD 25 = attrs.schedset ∧
      (startFlags attrs createFlags).getLsbD 27 = (!attrs.schedset && attrs.qosclass != 0) ∧
      (startFlags attrs createFlags).getLsbD 29 = createFlags.getLsbD 1 := by
  have hsched : ∀ k, 24 < k → k < 32 → (schedFlags attrs).getLsbD k =
      if attrs.schedset then decide (k = 25)
      else attrs.qosclass != 0 && decide (k = 27) := by
    intro k hlow hk
    unfold schedFlags
    split_ifs with hs hq
    · rw [sched_bit _ _ hk, if_neg (by omega), if_neg (by omega)]
    · rw [class_bit _ hk, if_neg (by omega), bne_iff_ne.mpr hq, Bool.true_and]
    · simp [not_not.mp hq]
  refine ⟨?_, ?_, ?_, ?_⟩
  · rw [startFlags_bit _ _ (by decide)]
    rfl
  · rw [startFlags_bit _ _ (by decide), hsched 25 (by decide) (by decide)]
    cases attrs.schedset <;> simp
  · rw [startFlags_bit _ _ (by decide), hsched 27 (by decide) (by decide)]
    cases attrs.schedset <;> simp
  · rw [startFlags_bit _ _ (by decide), hsched 29 (by decide) (by decide)]
    cases attrs.schedset <;> simp

/-- The flags of the system call carry the request of the attributes unchanged, for a policy
and a class of any value and a priority cut to 16 bits. -/
theorem startFlags_read (attrs : SchedAttr) (createFlags : BitVec 32) :
    readFlags (startFlags attrs createFlags) = requested attrs createFlags ∧
      (startFlags attrs createFlags).getLsbD 24 = true := by
  obtain ⟨hcustom, hsched, hclass, hsuspend⟩ := startFlags_kinds attrs createFlags
  refine ⟨?_, hcustom⟩
  unfold readFlags requested
  rw [hsched, hclass, hsuspend]
  cases hs : attrs.schedset with
  | true =>
    obtain ⟨hpolicy, himportance⟩ := startFlags_policy attrs createFlags hs
    simp only [hpolicy, himportance, if_true, Bool.not_true, Bool.false_and, Bool.false_eq_true,
      if_false]
  | false =>
    cases hq : attrs.qosclass != 0 with
    | true =>
      have hqos := startFlags_class attrs createFlags hs (bne_iff_ne.mp hq)
      simp only [hqos, if_true, Bool.not_false, Bool.true_and, Bool.false_eq_true, if_false]
    | false =>
      simp only [Bool.not_false, Bool.true_and, Bool.false_eq_true, if_false]

/-- The calls of the kernel that change what is mapped, and the one that starts the thread.
A mapping stands with the address that it got. -/
inductive KernelCall where
  | mmap (addr size : BitVec 64)
  | mprotect (addr : BitVec 64) (length : BitVec 32)
  | bsdthreadCreate (stack thread : BitVec 64) (flags : BitVec 32)
  | bsdthreadTerminate (freeaddr freesize : BitVec 64)
  | munmap (addr size : BitVec 64)
  deriving DecidableEq

structure Created where
  ret : ℕ
  thread : Option Thread
  calls : List KernelCall

/-- `main` is `&_main_thread`, `starts` whether `z_bsdthread_create` succeeds. -/
def zPthreadCreateInternal (p : Paging) (main : BitVec 64) (mmap : BitVec 64 → BitVec 64)
    (starts : Bool) (attrs : Option SchedAttr) (createFlags : BitVec 32) : Created :=
  match ThreadMapping.zPthreadCreateInternal p mmap (attrs.map (·.toAttr)) with
  | .error e => ⟨e, none, []⟩
  | .ok a =>
    let t := a.thread
    let calls := .mmap a.addr a.size ::
      (a.guard.map fun g => KernelCall.mprotect g.1 g.2).toList ++
      [.bsdthreadCreate t.stackaddr t.addr (startFlags (attrs.getD schedAttrDefault) createFlags)]
    if starts then ⟨0, some t, calls⟩
    else ⟨EAGAIN, none,
      calls ++ if t.addr ≠ main then [.munmap t.freeaddr t.freesize] else []⟩

def KernelCall.apply (mapped : Set ℕ) : KernelCall → Set ℕ
  | .mmap addr size => mapped ∪ rangeOf (addr, size)
  | .bsdthreadTerminate addr size | .munmap addr size => mapped \ rangeOf (addr, size)
  | .mprotect _ _ | .bsdthreadCreate _ _ _ => mapped

def applyCalls (calls : List KernelCall) (mapped : Set ℕ) : Set ℕ :=
  calls.foldl KernelCall.apply mapped

/-- Attributes whose record lies in its mapping: the stack of the caller, or sizes that do not
wrap. -/
def Fits (p : Paging) (attr : Attr) : Prop :=
  p.shift < 32 ∧ (attr.stackaddr = 0 → neededSize p attr + (2 ^ p.shift - 1) < 2 ^ 64)

variable {p : Paging} {mmap : BitVec 64 → BitVec 64} {attr : Attr} {a : Allocation}

theorem allocated_free (h : zPthreadAllocate p mmap attr = some a) :
    a.thread.freeaddr = a.addr ∧ a.thread.freesize = a.size := running_free h true

theorem record_mapped (h : zPthreadAllocate p mmap attr = some a) (hfits : Fits p attr)
    (hend : a.addr.toNat + a.size.toNat < 2 ^ 64) :
    a.thread.addr.toNat ∈ rangeOf (a.addr, a.size) := by
  obtain ⟨hpage, hsum⟩ := hfits
  by_cases hstack : attr.stackaddr = 0
  · obtain ⟨haddr, -, hroom⟩ := (allocated_own h hstack).nested hpage (hsum hstack) hend
    have := bytes_eq
    exact ⟨by simp only; omega, by simp only; omega⟩
  · obtain ⟨allocaddr, rfl, -⟩ := allocated_eq h
    have hsizes : sizesOf p attr = ⟨PTHREAD_SIZE p, 0, 0, attr.stacksize⟩ := if_pos hstack
    have hrecord := (PTHREAD_SIZE_rounded hpage).le
    rw [bytes_eq] at hrecord
    have haddr : (allocatedAt p attr allocaddr).thread.addr = allocaddr := by
      simp only [allocatedAt, hsizes, zPthreadStructInit]
      exact BitVec.add_zero _
    have hsize : (allocatedAt p attr allocaddr).size = PTHREAD_SIZE p := by
      simp only [allocatedAt, hsizes]
    rw [haddr, hsize]
    exact ⟨Nat.le_refl _, by simp only [allocatedAt]; omega⟩

theorem start_calls (addr size : BitVec 64) (guard : Option (BitVec 64 × BitVec 32))
    (stack thread : BitVec 64) (flags : BitVec 32) (rest : List KernelCall) (mapped : Set ℕ) :
    applyCalls ((.mmap addr size :: (guard.map fun g => KernelCall.mprotect g.1 g.2).toList ++
      [.bsdthreadCreate stack thread flags]) ++ rest) mapped =
        applyCalls rest (mapped ∪ rangeOf (addr, size)) := by
  cases guard <;> rfl

theorem created_mapped {main : BitVec 64} (starts : Bool) {attrs : Option SchedAttr}
    (createFlags : BitVec 32) {mapped : Set ℕ}
    (hfresh : ∀ a, ThreadMapping.zPthreadCreateInternal p mmap (attrs.map (·.toAttr)) = .ok a →
      Disjoint mapped (rangeOf (a.addr, a.size)) ∧ a.thread.addr ≠ main) :
    let c := zPthreadCreateInternal p main mmap starts attrs createFlags
    (c.ret = 0 ↔ c.thread.isSome) ∧
      (∀ t ∈ c.thread, ∃ a,
        ThreadMapping.zPthreadCreateInternal p mmap (attrs.map (·.toAttr)) = .ok a ∧
        a.thread = t ∧ applyCalls c.calls mapped = mapped ∪ rangeOf (t.freeaddr, t.freesize)) ∧
      (c.thread = none → applyCalls c.calls mapped = mapped) := by
  dsimp only
  unfold zPthreadCreateInternal
  cases hcreate : ThreadMapping.zPthreadCreateInternal p mmap (attrs.map (·.toAttr)) with
  | error e =>
    refine ⟨?_, nofun, fun _ => rfl⟩
    have he : e ≠ 0 := by
      unfold ThreadMapping.zPthreadCreateInternal at hcreate
      split at hcreate
      · obtain rfl := Except.error.inj hcreate
        decide
      · split at hcreate
        · obtain rfl := Except.error.inj hcreate
          decide
        · cases hcreate
    simp [he]
  | ok a =>
    obtain ⟨hdisjoint, hmain⟩ := hfresh a hcreate
    obtain ⟨haddr, hsize⟩ := allocated_free (created_allocated hcreate)
    dsimp only
    cases starts with
    | true =>
      refine ⟨by simp, ?_, nofun⟩
      rintro t ⟨⟩
      refine ⟨a, rfl, rfl, ?_⟩
      rw [haddr, hsize]
      exact (congrArg (applyCalls · mapped) (List.append_nil _).symm).trans (start_calls ..)
    | false =>
      refine ⟨by simp [EAGAIN], nofun, fun _ => ?_⟩
      rw [if_neg (by decide), if_pos hmain, haddr, hsize, start_calls]
      change (mapped ∪ rangeOf (a.addr, a.size)) \ rangeOf (a.addr, a.size) = mapped
      exact Set.union_sdiff_cancel_right (Set.disjoint_iff.mp hdisjoint)

end ThreadCreate

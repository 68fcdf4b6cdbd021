import LibSystemCall.ErrnoCell

/-! # Which thread a thread takes itself for

`z_pthread_self` and the cells of errno and of the thread's port are words of the TSD segment,
which lies inside the thread's own record. The records are written here when the program starts,
when a thread is made and in the child of a fork. -/
namespace ThreadIdentity

open ByteMemory StructLayout ThreadRecord ErrnoCell

def tsdSelf : ℕ := 0
def tsdMigReply : ℕ := 2
def tsdMachThreadSelf : ℕ := 3
def tsdThreadQosClass : ℕ := 4
def tsdReturnToKernel : ℕ := 5
def tsdMachSpecialReply : ℕ := 8
def tsdSemaphoreCache : ℕ := 9
def ptkLibdispatchKey0 : ℕ := 20

def slotAt (t k : ℕ) : ℕ := t + threadShape.offset .tsd + k * 8

def slot (m : Memory) (t k : ℕ) : BitVec 64 := loadWord 64 m (slotAt t k)

def setSlot (t k : ℕ) (v : BitVec 64) (m : Memory) : Memory := storeWord m (slotAt t k) v

def setField {w : ℕ} (t : ℕ) (f : ThreadField) (v : BitVec w) (m : Memory) : Memory :=
  storeWord m (t + threadShape.offset f) v

structure Registration where
  version : ℕ
  dispatchQueueOffset : ℕ
  tsdOffset : ℕ
  returnToKernelOffset : ℕ
  machThreadSelfOffset : ℕ

/-- `sizeof(struct z_pthread_registration_data)`, which is packed -/
def registrationBytes : ℕ := 52

structure PageSizes where
  kernelPageShift : BitVec 32
  kernelPageSize : BitVec 64
  kernelPageMask : BitVec 64
  pageShift : BitVec 32
  pageSize : BitVec 64
  pageMask : BitVec 64
  cpuCapabilities : BitVec 64

structure CommPage where
  version : BitVec 16
  kernelPageShift : BitVec 8
  userPageShift : BitVec 8
  cpuCapabilities : BitVec 64

/-- The globals of z_mach.c and z_pthread.c, and the running thread's TSD base. `calls` are the
routines of the fork table that have been called, with `z_pthread_self` at the call. -/
structure Process extends World where
  registered : Option Registration
  supportedFeatures : BitVec 32
  stackHint : BitVec 64
  isThreaded : BitVec 32
  psavedSelf : BitVec 64
  machTaskSelf : BitVec 32
  taskReplyPort : BitVec 32
  pages : PageSizes
  calls : List (ℕ × BitVec 64)

def Process.update (f : Memory → Memory) (p : Process) : Process := { p with mem := f p.mem }

def zPthreadSelf (p : Process) : BitVec 64 := zTsdGetDirect p.toWorld tsdSelf

def zLockOwnerGetSelf (p : Process) : BitVec 32 :=
  (zTsdGetDirect p.toWorld tsdMachThreadSelf).setWidth 32

/-- What the kernel returns for `thread_selfid`, through an `int`. -/
def zPthreadSelfid (id : BitVec 64) : BitVec 64 := (id.setWidth 32).signExtend 64

def zPthreadSetSelf (main : ℕ) (id : BitVec 64) (p : Process) : Process :=
  let p := p.update (setField main .threadId (zPthreadSelfid id))
  let p := p.update (setSlot main tsdSelf (BitVec.ofNat 64 main))
  let p := p.update (setSlot main tsdErrno (BitVec.ofNat 64 (errnoAddr main)))
  { p with gs := main + threadShape.offset .tsd }

def zPthreadSetSelfInternal (t : ℕ) (id : BitVec 64) (p : Process) : Process :=
  p.update (setField t .threadId (zPthreadSelfid id))

def zPthreadSetKernelThread (t : ℕ) (port : BitVec 32) (p : Process) : Process :=
  p.update (setSlot t tsdMachThreadSelf (port.setWidth 64))

def zPthreadSetReplyPort (t : ℕ) (port : BitVec 32) (p : Process) : Process :=
  if t = 0 then
    p.update fun m => storeWord m (p.gs + tsdMigReply * 8) (port.setWidth 64 : BitVec 64)
  else p.update (setSlot t tsdMigReply (port.setWidth 64))

def zPthreadMainThreadInit (t : ℕ) (threadSelf replyPort : BitVec 32) (p : Process) : Process :=
  let p := zPthreadSetKernelThread t threadSelf p
  let p := zPthreadSetReplyPort t replyPort p
  let p := p.update (setField t .cleanupStack (0 : BitVec 64))
  let p := p.update (setField t .tlJoinCtx (0 : BitVec 64))
  let p := p.update (setField t .tlExitGate (0 : BitVec 32))
  let p := p.update (setSlot t tsdSemaphoreCache 0)
  p.update (setSlot t tsdMachSpecialReply 0)

/-- What `z_pthread_struct_init` takes from the attributes; a store to a bit-field is a store of
its whole unit. There is no class where the scheduling is set. -/
structure RecordInit where
  sig : BitVec 64
  qosclass : Option (BitVec 64)
  tlBits : BitVec 32
  stackaddr : BitVec 64
  stackbottom : BitVec 64
  freeaddr : BitVec 64
  freesize : BitVec 64
  guardsize : BitVec 64
  flagBits : BitVec 16
  cancelState : BitVec 16

def zPthreadStructInit (t : ℕ) (r : RecordInit) (m : Memory) : Memory :=
  let m := setField t .sig r.sig m
  let m := setSlot t tsdSelf (BitVec.ofNat 64 t) m
  let m := setSlot t tsdErrno (BitVec.ofNat 64 (errnoAddr t)) m
  let m := match r.qosclass with
    | some q => setSlot t tsdThreadQosClass q m
    | none => m
  let m := setField t .tlBits r.tlBits m
  let m := setField t .stackaddr r.stackaddr m
  let m := setField t .stackbottom r.stackbottom m
  let m := setField t .freeaddr r.freeaddr m
  let m := setField t .freesize r.freesize m
  let m := setField t .guardsize r.guardsize m
  let m := setField t .flagBits r.flagBits m
  setField t .cancelState r.cancelState m

structure RegisterAnswer where
  rv : BitVec 32
  stackAddrHint : BitVec 64

def registrationData : Registration where
  version := registrationBytes
  dispatchQueueOffset := ptkLibdispatchKey0 * 8
  tsdOffset := threadShape.offset .tsd
  returnToKernelOffset := tsdReturnToKernel * 8
  machThreadSelfOffset := tsdMachThreadSelf * 8

def zPthreadBsdthreadInit (a : RegisterAnswer) (p : Process) : Process :=
  let p := if a.rv = -1 then p else { p with registered := some registrationData }
  let p := if 0 < a.rv.toInt then { p with supportedFeatures := a.rv } else p
  if a.stackAddrHint ≠ 0 then { p with stackHint := a.stackAddrHint } else p

def CommPage.shift (c : CommPage) (b : BitVec 8) (old : BitVec 32) : BitVec 32 :=
  if 14 ≤ c.version.toNat then b.setWidth 32 else old

def pageSizeOf (shift : BitVec 32) : BitVec 64 := ((1#32) <<< shift.toNat).signExtend 64

def initKernelPage (c : CommPage) (s : PageSizes) : PageSizes :=
  if s.kernelPageShift = 0 then
    let shift := c.shift c.kernelPageShift 12
    { s with
      kernelPageShift := shift
      kernelPageSize := pageSizeOf shift
      kernelPageMask := pageSizeOf shift - 1 }
  else s

def initUserPage (c : CommPage) (s : PageSizes) : PageSizes :=
  if s.pageShift = 0 then
    let shift := c.shift c.userPageShift s.kernelPageShift
    { s with
      pageShift := shift
      pageSize := pageSizeOf shift
      pageMask := pageSizeOf shift - 1 }
  else s

def initPages (c : CommPage) (s : PageSizes) : PageSizes :=
  { initUserPage c (initKernelPage c s) with cpuCapabilities := c.cpuCapabilities }

def zMachInit (c : CommPage) (taskSelf replyPort : BitVec 32) (p : Process) : Process :=
  { p with machTaskSelf := taskSelf, taskReplyPort := replyPort, pages := initPages c p.pages }

/-- `z_pthread_init`, where `r` has the attributes of the main thread and `tl_joinable`. -/
def zPthreadInit (r : RecordInit) (threadSelf replyPort : BitVec 32) (a : RegisterAnswer)
    (p : Process) : Process :=
  let t := (zPthreadSelf p).toNat
  let p := p.update (zPthreadStructInit t r)
  zPthreadBsdthreadInit a (zPthreadMainThreadInit t threadSelf replyPort p)

theorem record_bytes : threadShape.bytes = 6368 := by decide +kernel

theorem field_below {f : ThreadField} (hf : f ≠ .tsd) :
    threadShape.offset f + f.size ≤ threadShape.offset .tsd := by
  rw [offset_tsd]
  revert hf
  cases f <;> decide +kernel

def Within (t : ℕ) (m m' : Memory) : Prop :=
  ∀ a, a < t ∨ t + threadShape.bytes ≤ a → m' a = m a

def Apart (t u : ℕ) : Prop := t + threadShape.bytes ≤ u ∨ u + threadShape.bytes ≤ t

def Key (k : ℕ) : Prop := k < externalPosixThreadKeysMax + internalPosixThreadKeysMax

variable {m m' m'' : Memory} {t u k j : ℕ}

instance : Decidable (Key k) := inferInstanceAs (Decidable (k < _))

theorem Apart.symm (h : Apart t u) : Apart u t := Or.symm h

theorem Within.refl (t : ℕ) (m : Memory) : Within t m m := fun _ _ => rfl

theorem Within.trans (h : Within t m m') (h' : Within t m' m'') : Within t m m'' :=
  fun a ha => (h' a ha).trans (h a ha)

theorem Key.inside (hk : Key k) (t : ℕ) : slotAt t k + 8 ≤ t + threadShape.bytes := by
  unfold Key externalPosixThreadKeysMax internalPosixThreadKeysMax at hk
  rw [slotAt, offset_tsd, record_bytes]
  omega

theorem Within.slot (h : Within t m m') (hap : Apart t u) (hk : Key k) :
    slot m' u k = slot m u k := by
  have hin := hk.inside u
  have hlow : u ≤ slotAt u k := by rw [slotAt, Nat.add_assoc]; exact Nat.le_add_right _ _
  refine loadWord_congr fun i hi => h _ ?_
  unfold Apart at hap
  omega

theorem within_setSlot (t : ℕ) (v : BitVec 64) (m : Memory) (hk : Key k) :
    Within t m (setSlot t k v m) := by
  intro a ha
  have hin := hk.inside t
  refine storeWord_outside ?_
  have hlow : t ≤ slotAt t k := by rw [slotAt, Nat.add_assoc]; exact Nat.le_add_right _ _
  omega

theorem within_setField {w : ℕ} (t : ℕ) {f : ThreadField} (v : BitVec w) (m : Memory)
    (hf : f ≠ .tsd) (hw : w / 8 ≤ f.size) : Within t m (setField t f v m) := by
  intro a ha
  have hbelow := field_below hf
  have hbytes := record_bytes
  rw [offset_tsd] at hbelow
  exact storeWord_outside (by omega)

theorem slot_setSlot_same (t k : ℕ) (v : BitVec 64) (m : Memory) :
    slot (setSlot t k v m) t k = v :=
  loadWord_storeWord_same _ _ _ rfl

theorem slot_setSlot_other (t : ℕ) (v : BitVec 64) (m : Memory) (h : j ≠ k) :
    slot (setSlot t k v m) t j = slot m t j := by
  refine loadWord_storeWord_disjoint ?_
  unfold slotAt
  omega

theorem slot_setField {w : ℕ} (t : ℕ) {f : ThreadField} (v : BitVec w) (m : Memory) (k : ℕ)
    (hf : f ≠ .tsd) (hw : w / 8 ≤ f.size) : slot (setField t f v m) t k = slot m t k := by
  have hbelow := field_below hf
  refine loadWord_storeWord_disjoint (.inr ?_)
  unfold slotAt
  omega

/-- Only the record at `t` has changed, and of its slots only those in `ks`. -/
structure Writes (t : ℕ) (ks : List ℕ) (m m' : Memory) : Prop where
  within : Within t m m'
  others : ∀ k, k ∉ ks → slot m' t k = slot m t k

structure Names (m : Memory) (t : ℕ) : Prop where
  self : slot m t tsdSelf = BitVec.ofNat 64 t
  errno : slot m t tsdErrno = BitVec.ofNat 64 (errnoAddr t)

variable {ks : List ℕ}

theorem Writes.trans (h : Writes t ks m m') (h' : Writes t ks m' m'') : Writes t ks m m'' where
  within := h.within.trans h'.within
  others k hk := (h'.others k hk).trans (h.others k hk)

theorem Writes.mono {js : List ℕ} (h : Writes t ks m m') (hsub : ks ⊆ js) : Writes t js m m' where
  within := h.within
  others k hk := h.others k fun hin => hk (hsub hin)

theorem Writes.refl (t : ℕ) (ks : List ℕ) (m : Memory) : Writes t ks m m :=
  ⟨Within.refl t m, fun _ _ => rfl⟩

theorem Writes.slot (h : Writes t ks m m') {v : BitVec 64} (hk : Key k) (hin : k ∈ ks) :
    Writes t ks m (setSlot t k v m') where
  within := h.within.trans (within_setSlot t v m' hk)
  others j hj := (slot_setSlot_other t v m' fun heq : j = k => hj (heq ▸ hin)).trans (h.others j hj)

theorem Writes.field {w : ℕ} {f : ThreadField} {v : BitVec w} (h : Writes t ks m m')
    (hf : f ≠ .tsd) (hw : w / 8 ≤ f.size) : Writes t ks m (setField t f v m') where
  within := h.within.trans (within_setField t v m' hf hw)
  others k hk := (slot_setField t v m' k hf hw).trans (h.others k hk)

theorem Names.writes (h : Names m t) (hw : Writes t ks m m') (h0 : tsdSelf ∉ ks)
    (h1 : tsdErrno ∉ ks) : Names m' t where
  self := (hw.others _ h0).trans h.self
  errno := (hw.others _ h1).trans h.errno

theorem names_set (t : ℕ) (m : Memory) :
    Names (setSlot t tsdErrno (BitVec.ofNat 64 (errnoAddr t))
      (setSlot t tsdSelf (BitVec.ofNat 64 t) m)) t where
  self := (slot_setSlot_other _ _ _ (by decide)).trans (slot_setSlot_same ..)
  errno := slot_setSlot_same ..

theorem structInit_record (t : ℕ) (r : RecordInit) (m : Memory) :
    Writes t [tsdSelf, tsdErrno, tsdThreadQosClass] m (zPthreadStructInit t r m) ∧
      Names (zPthreadStructInit t r m) t := by
  -- the stores after the two names, from the class on
  have hlast : ∀ m₁, Writes t [tsdThreadQosClass] m₁
      (setField t .cancelState r.cancelState <| setField t .flagBits r.flagBits <|
        setField t .guardsize r.guardsize <| setField t .freesize r.freesize <|
        setField t .freeaddr r.freeaddr <| setField t .stackbottom r.stackbottom <|
        setField t .stackaddr r.stackaddr <| setField t .tlBits r.tlBits <|
        match r.qosclass with
        | some q => setSlot t tsdThreadQosClass q m₁
        | none => m₁) := by
    intro m₁
    iterate 8 refine Writes.field ?_ (by decide) (by decide)
    cases r.qosclass with
    | none => exact .refl ..
    | some q => exact (Writes.refl ..).slot (by decide) (by decide)
  refine ⟨Writes.trans ?_ ((hlast _).mono (by decide)),
    (names_set t _).writes (hlast _) (by decide) (by decide)⟩
  refine Writes.slot ?_ (by decide) (by decide)
  refine Writes.slot ?_ (by decide) (by decide)
  exact (Writes.refl ..).field (by decide) (by decide)

theorem mainThreadInit_record {t : ℕ} (ht : t ≠ 0) (threadSelf replyPort : BitVec 32)
    (p : Process) :
    ∃ m', zPthreadMainThreadInit t threadSelf replyPort p = { p with mem := m' } ∧
      Writes t [tsdMigReply, tsdMachThreadSelf, tsdMachSpecialReply, tsdSemaphoreCache] p.mem m' ∧
      slot m' t tsdMachThreadSelf = threadSelf.setWidth 64 := by
  have hlast : ∀ m₁, Writes t [tsdMigReply, tsdMachSpecialReply, tsdSemaphoreCache] m₁
      (setSlot t tsdMachSpecialReply 0 <| setSlot t tsdSemaphoreCache 0 <|
        setField t .tlExitGate (0 : BitVec 32) <| setField t .tlJoinCtx (0 : BitVec 64) <|
        setField t .cleanupStack (0 : BitVec 64) <|
        setSlot t tsdMigReply (replyPort.setWidth 64) m₁) := by
    intro m₁
    refine Writes.slot ?_ (by decide) (by decide)
    refine Writes.slot ?_ (by decide) (by decide)
    iterate 3 refine Writes.field ?_ (by decide) (by decide)
    exact (Writes.refl ..).slot (by decide) (by decide)
  refine ⟨setSlot t tsdMachSpecialReply 0 <| setSlot t tsdSemaphoreCache 0 <|
    setField t .tlExitGate (0 : BitVec 32) <| setField t .tlJoinCtx (0 : BitVec 64) <|
    setField t .cleanupStack (0 : BitVec 64) <|
    setSlot t tsdMigReply (replyPort.setWidth 64) <|
    setSlot t tsdMachThreadSelf (threadSelf.setWidth 64) p.mem, ?_, ?_, ?_⟩
  · simp only [zPthreadMainThreadInit, zPthreadSetReplyPort, if_neg ht, Process.update,
      zPthreadSetKernelThread]
  · refine Writes.trans ?_ ((hlast _).mono (by decide))
    exact (Writes.refl ..).slot (by decide) (by decide)
  · exact ((hlast _).others _ (by decide)).trans (slot_setSlot_same ..)

theorem setSelfInternal_record (t : ℕ) (id : BitVec 64) (p : Process) :
    ∃ m', zPthreadSetSelfInternal t id p = { p with mem := m' } ∧ Writes t [] p.mem m' :=
  ⟨setField t .threadId (zPthreadSelfid id) p.mem, rfl,
    (Writes.refl ..).field (by decide) (by decide)⟩

theorem bsdthreadInit_rest (a : RegisterAnswer) (p : Process) :
    ∃ features hint, zPthreadBsdthreadInit a p = { p with
      registered := if a.rv = -1 then p.registered else some registrationData
      supportedFeatures := features
      stackHint := hint } := by
  unfold zPthreadBsdthreadInit
  split_ifs <;> exact ⟨_, _, rfl⟩

theorem setSelf_record (main : ℕ) (id : BitVec 64) (p : Process) :
    ∃ m', zPthreadSetSelf main id p =
        { p with mem := m', gs := main + threadShape.offset .tsd } ∧
      Writes main [tsdSelf, tsdErrno] p.mem m' ∧ Names m' main := by
  refine ⟨setSlot main tsdErrno (BitVec.ofNat 64 (errnoAddr main))
    (setSlot main tsdSelf (BitVec.ofNat 64 main)
      (setField main .threadId (zPthreadSelfid id) p.mem)), ?_, ?_, names_set main _⟩
  · simp only [zPthreadSetSelf, Process.update]
  · refine Writes.slot ?_ (by decide) (by decide)
    refine Writes.slot ?_ (by decide) (by decide)
    exact (Writes.refl ..).field (by decide) (by decide)

theorem initPages_again (c : CommPage) (s : PageSizes) :
    initPages c (initPages c s) = initPages c s := by
  grind [initPages, initUserPage, initKernelPage]

end ThreadIdentity

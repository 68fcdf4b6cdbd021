import LibSystemCall.GuardedSystem
import LibSystemCall.ThreadIdentity
import LibSystemCall.ThreadMapping
import Mathlib.Logic.Function.Basic

/-! # The start of a thread

`z_pthread_create_internal` leaves the routine and its argument in the new record, and the kernel
enters `z_thread_start` with the address of that record. The routine that the kernel was given is
passed on, and `z_pthread_start` does not use it. -/
namespace ThreadStart

open ByteMemory StructLayout ThreadRecord GuardedSystem
open ThreadIdentity (RecordInit Within setField setSlot slot slotAt tsdSelf tsdMachThreadSelf
  registrationData zPthreadSelfid)
open ThreadMapping (Paging Attr Allocation zPthreadCreateInternal effective
  zPthreadAttrGuardsize zPthreadAttrStacksize)

structure Registers where
  rdi : BitVec 64
  esi : BitVec 32
  rdx : BitVec 64
  rcx : BitVec 64
  r8 : BitVec 64
  r9d : BitVec 32
  rsp : BitVec 64
  rbp : BitVec 64
  gs : ℕ

structure Machine extends Registers where
  mem : Memory

def push (v : BitVec 64) (m : Machine) : Machine :=
  { m with rsp := m.rsp - 8, mem := storeWord m.mem (m.rsp - 8).toNat v }

/-- Up to the first instruction of `z_pthread_start`; `ra` is the address behind the call. -/
def zThreadStart (ra : BitVec 64) (m : Machine) : Machine :=
  let m := push 0 m
  let m := push m.rbp m
  let m := { m with rbp := m.rsp }
  let m := { m with rsp := m.rsp - 16 }
  push ra m

/-- The call of a start routine, with what `z_pthread_self` is in it and the two pointers of the
stack at the entry of `z_pthread_start`. -/
structure Call where
  routine : BitVec 64
  argument : BitVec 64
  self : BitVec 64
  rsp : BitVec 64
  rbp : BitVec 64
  deriving DecidableEq

/-- Up to the call of the routine; `id` is what the kernel answers to `thread_selfid`. No thread
is marked as cancelled, since the state that is looked at is the constant 0. -/
def zPthreadStart (id : BitVec 64) (m : Machine) : Memory × Call :=
  let self := m.rdi.toNat
  let mem := setField self .threadId (zPthreadSelfid id) m.mem
  (mem,
    { routine := loadWord 64 mem (self + threadShape.offset .startFun)
      argument := loadWord 64 mem (self + threadShape.offset .arg)
      self := loadWord 64 mem (m.gs + tsdSelf * 8)
      rsp := m.rsp
      rbp := m.rbp })

/-- The stores of `z_pthread_terminate` that the joiner looks at. -/
def terminateStores (t : ℕ) (exitValue : BitVec 64) (m : Memory) : Memory :=
  setField t .tlExitValue exitValue (setField t .tlExitGate (0 : BitVec 32) m)

def exitValueAt (m : Memory) (t : ℕ) : BitVec 64 :=
  loadWord 64 m (t + threadShape.offset .tlExitValue)

/-- `gap` are the bytes that the kernel leaves free at the top of a new stack. -/
structure Platform extends Paging where
  ra : BitVec 64
  gap : ℕ
  page_aligned : 4 ≤ shift
  gap_aligned : gap % 16 = 0
  gap_small : gap + 40 ≤ 8192

inductive Phase where
  | created
  | running
  | leaving (v : BitVec 64)
  | exited (v : BitVec 64)
  | freed
  deriving DecidableEq

structure Made where
  attr : Attr
  alloc : Allocation
  routine : BitVec 64
  argument : BitVec 64
  phase : Phase

def Made.record (t : Made) : ℕ := t.alloc.thread.addr.toNat
def Made.stack (t : Made) : ℕ := t.alloc.thread.stackaddr.toNat

variable {ι : Type*}

structure State (ι : Type*) where
  mem : Memory
  made : ι → Option Made
  calls : List (ι × Call)

def callsOf [DecidableEq ι] (calls : List (ι × Call)) (i : ι) : List Call :=
  (calls.filter (·.1 = i)).map (·.2)

/-- In `create` the new mapping is at `addr` and reads `fresh`, and there is a port if
`z_bsdthread_create` succeeds. A thread leaves when its routine returns or calls
`z_pthread_exit`; `free` unmaps its record, and `store` is anything else that a thread does. -/
inductive Event (ι : Type*) where
  | create (i : ι) (attrs : Option Attr) (addr : BitVec 64) (fresh : Memory) (r : RecordInit)
      (routine argument : BitVec 64) (port : Option (BitVec 32))
  | start (i : ι) (e : Registers) (id : BitVec 64)
  | leave (i : ι) (v : BitVec 64)
  | terminate (i : ι) (v : BitVec 64)
  | free (i : ι)
  | store (m : Memory)

def initOf (r : RecordInit) (t : ThreadMapping.Thread) : RecordInit :=
  { r with
    stackaddr := t.stackaddr
    stackbottom := t.stackbottom
    freeaddr := t.freeaddr
    freesize := t.freesize
    guardsize := t.guardsize }

def writeNew (a : Allocation) (fresh : Memory) (r : RecordInit) (routine argument : BitVec 64)
    (m : Memory) : Memory :=
  let t := a.thread.addr.toNat
  let m := fun x => if a.addr.toNat ≤ x ∧ x < a.addr.toNat + a.size.toNat then fresh x else m x
  let m := ThreadIdentity.zPthreadStructInit t (initOf r a.thread) m
  let m := setField t .arg argument m
  setField t .startFun routine m

def kernelPort (t : ℕ) (port : BitVec 32) (m : Memory) : Memory :=
  setSlot t tsdMachThreadSelf (port.setWidth 64) m

section System

variable [DecidableEq ι]

def advance (made : ι → Option Made) (i : ι) (phase : Phase) : ι → Option Made :=
  Function.update made i ((made i).map fun t => { t with phase := phase })

def next (K : Platform) (s : State ι) : Event ι → State ι
  | .create i attrs addr fresh r routine argument port =>
    match zPthreadCreateInternal K.toPaging (fun _ => addr) attrs with
    | .error _ => s
    | .ok a =>
      let m := writeNew a fresh r routine argument s.mem
      match port with
      | none => { s with mem := m }
      | some port =>
        { s with
          mem := kernelPort a.thread.addr.toNat port m
          made := Function.update s.made i
            (some ⟨effective attrs, a, routine, argument, .created⟩) }
  | .start i e id =>
    let r := zPthreadStart id (zThreadStart K.ra ⟨e, s.mem⟩)
    { mem := r.1, made := advance s.made i .running, calls := s.calls ++ [(i, r.2)] }
  | .leave i v => { s with made := advance s.made i (.leaving v) }
  | .terminate i v =>
    { s with
      mem := ((s.made i).map fun t => terminateStores t.record v s.mem).getD s.mem
      made := advance s.made i (.exited v) }
  | .free i => { s with made := advance s.made i .freed }
  | .store m => { s with mem := m }

/-- The bytes below the top of a stack that the entry code may write. -/
def entryBytes (K : Platform) (top : ℕ) : Set ℕ := Set.Ico (top - (K.gap + 40)) top

/-- The memory that nobody else is given; the stack goes before the record does. -/
def Made.owned (K : Platform) (t : Made) : Set ℕ :=
  match t.phase with
  | .created | .running | .leaving _ => t.alloc.mapping ∪ entryBytes K t.stack
  | .exited _ => t.alloc.thread.record
  | .freed => ∅

def wordBytes (a : ℕ) : Set ℕ := Set.Ico a (a + 8)

/-- What nothing else in the program overwrites: before the start what the thread is to do and
who it is, then its first frame, and at the end the value that it leaves. -/
def Made.guarded (K : Platform) (t : Made) : Set ℕ :=
  match t.phase with
  | .created => wordBytes (t.record + threadShape.offset .startFun) ∪
      wordBytes (t.record + threadShape.offset .arg) ∪ wordBytes (slotAt t.record tsdSelf)
  | .running => wordBytes (t.stack - K.gap - 8)
  | .exited _ => wordBytes (t.record + threadShape.offset .tlExitValue)
  | .leaving _ | .freed => ∅

/-- `z_mmap` gives whole pages that no live thread has. -/
structure FreshMapping (K : Platform) (s : State ι) (a : Allocation) : Prop where
  paged : a.addr.toNat % 2 ^ K.shift = 0
  ends : a.addr.toNat + a.size.toNat < 2 ^ 64
  apart : ∀ j t, s.made j = some t → Disjoint a.mapping (t.owned K)

/-- The top of a stack that the caller gives is memory of its own. -/
structure GivenStack (K : Platform) (s : State ι) (a : Allocation) : Prop where
  room : K.gap + 40 ≤ a.thread.stackaddr.toNat
  outside : Disjoint (entryBytes K a.thread.stackaddr.toNat) a.mapping
  apart : ∀ j t, s.made j = some t → Disjoint (entryBytes K a.thread.stackaddr.toNat) (t.owned K)

structure Usable (K : Platform) (s : State ι) (attr : Attr) (a : Allocation) : Prop where
  mapping : FreshMapping K s a
  page : K.shift < 32
  own : attr.stackaddr = 0 →
    ThreadMapping.neededSize K.toPaging attr + (2 ^ K.shift - 1) < 2 ^ 64
  given : attr.stackaddr ≠ 0 → GivenStack K s a

structure EntryOf (K : Platform) (t : Made) (e : Registers) : Prop where
  rdi : e.rdi = t.alloc.thread.addr
  rsp : e.rsp = t.alloc.thread.stackaddr - BitVec.ofNat 64 K.gap
  gs : e.gs = t.record + registrationData.tsdOffset

def Enabled (K : Platform) (s : State ι) : Event ι → Prop
  | .create i attrs addr _ _ _ _ _ => s.made i = none ∧
      ∀ a, zPthreadCreateInternal K.toPaging (fun _ => addr) attrs = .ok a →
        Usable K s (effective attrs) a
  | .start i e _ => ∃ t, s.made i = some t ∧ t.phase = .created ∧ EntryOf K t e
  | .leave i _ => ∃ t, s.made i = some t ∧ t.phase = .running
  | .terminate i v => ∃ t, s.made i = some t ∧ t.phase = .leaving v
  | .free i => ∃ t v, s.made i = some t ∧ t.phase = .exited v
  | .store m => ∀ i t, s.made i = some t → ∀ x ∈ t.guarded K, m x = s.mem x

def startSystem (K : Platform) : System (State ι) (Event ι) where
  Initial s := (∀ i, s.made i = none) ∧ s.calls = []
  Enabled := Enabled K
  next := next K

end System

def Changes (S : Set ℕ) (m m' : Memory) : Prop := ∀ x, x ∉ S → m' x = m x

variable {S T : Set ℕ} {m m' m'' : Memory} {K : Platform} {t u : Made}

theorem Changes.trans (h : Changes S m m') (h' : Changes S m' m'') : Changes S m m'' :=
  fun x hx => (h' x hx).trans (h x hx)

theorem Changes.mono (h : Changes S m m') (hsub : S ⊆ T) : Changes T m m' :=
  fun x hx => h x fun hin => hx (hsub hin)

theorem changes_storeWord {w : ℕ} (m : Memory) {a : ℕ} (v : BitVec w)
    (hsub : Set.Ico a (a + w / 8) ⊆ S) : Changes S m (storeWord m a v) := by
  intro x hx
  refine storeWord_outside (Classical.byContradiction fun hin => hx (hsub ⟨?_, ?_⟩)) <;> omega

theorem changes_of_within {a : ℕ} (h : Within a m m') :
    Changes (Set.Ico a (a + threadShape.bytes)) m m' := by
  intro x hx
  refine h x (Classical.byContradiction fun hin => hx ⟨?_, ?_⟩) <;> omega

theorem loadWord_kept {a : ℕ} (h : ∀ x ∈ wordBytes a, m' x = m x) :
    loadWord 64 m' a = loadWord 64 m a :=
  loadWord_congr fun _ hi => h _ ⟨Nat.le_add_right _ _, Nat.add_lt_add_left hi a⟩

theorem word_in_record {f : ThreadField} (hf : f.size = 8) (a : ℕ) :
    wordBytes (a + threadShape.offset f) ⊆ Set.Ico a (a + threadShape.bytes) := by
  have hend : threadShape.offset f + 8 ≤ threadShape.bytes := by
    have hbelow := ThreadIdentity.field_below (f := f) (by rintro rfl; revert hf; decide)
    have hbytes := ThreadIdentity.record_bytes
    rw [ErrnoCell.offset_tsd] at hbelow
    omega
  apply Set.Ico_subset_Ico <;> omega

/-- The entry code pushes three words, the first of them the null return address. -/
theorem zThreadStart_frame (ra : BitVec 64) {m : Machine} (h : 40 ≤ m.rsp.toNat) :
    let s := zThreadStart ra m
    s.rdi = m.rdi ∧ s.gs = m.gs ∧ s.rsp = m.rsp - 40 ∧ s.rbp = m.rsp - 16 ∧
      Changes (Set.Ico (m.rsp.toNat - 40) m.rsp.toNat) m.mem s.mem ∧
      loadWord 64 s.mem (m.rsp.toNat - 8) = 0 := by
  intro s
  have hrsp : s.rsp = m.rsp - 40 := by
    simp only [s, zThreadStart, push]
    bv_omega
  have hrbp : s.rbp = m.rsp - 16 := by
    simp only [s, zThreadStart, push]
    bv_omega
  have hfirst : (m.rsp - 8).toNat = m.rsp.toNat - 8 := by bv_omega
  have hsecond : (m.rsp - 8 - 8).toNat = m.rsp.toNat - 16 := by bv_omega
  have hthird : (m.rsp - 8 - 8 - 16 - 8).toNat = m.rsp.toNat - 40 := by bv_omega
  have hmem : s.mem = storeWord (storeWord (storeWord m.mem (m.rsp - 8).toNat (0 : BitVec 64))
      (m.rsp - 8 - 8).toNat m.rbp) (m.rsp - 8 - 8 - 16 - 8).toNat ra := by
    simp only [s, zThreadStart, push]
  rw [hfirst, hsecond, hthird] at hmem
  refine ⟨rfl, rfl, hrsp, hrbp, ?_, ?_⟩
  · rw [hmem]
    refine ((changes_storeWord m.mem _ ?_).trans (changes_storeWord _ _ ?_)).trans
      (changes_storeWord _ _ ?_)
    all_goals apply Set.Ico_subset_Ico <;> omega
  · rw [hmem, loadWord_storeWord_disjoint (by omega), loadWord_storeWord_disjoint (by omega),
      loadWord_storeWord_same _ _ _ rfl]

theorem changes_setField {w a : ℕ} {f : ThreadField} (v : BitVec w) (m : Memory)
    (hf : f ≠ .tsd) (hw : w / 8 ≤ f.size) :
    Changes (Set.Ico a (a + threadShape.bytes)) m (setField a f v m) :=
  changes_of_within (ThreadIdentity.within_setField a v m hf hw)

theorem field_setField {w a : ℕ} {f g : ThreadField} (v : BitVec w) (m : Memory) (hfg : f ≠ g)
    (hf : 8 ≤ f.size) (hw : w / 8 ≤ g.size) :
    loadWord 64 (setField a g v m) (a + threadShape.offset f) =
      loadWord 64 m (a + threadShape.offset f) := by
  have hapart := threadShape.disjoint hfg
  have hsf : threadShape.size f = f.size := rfl
  have hsg : threadShape.size g = g.size := rfl
  exact loadWord_storeWord_disjoint (by omega)

theorem field_setSlot {a k : ℕ} {f : ThreadField} (v : BitVec 64) (m : Memory)
    (hf : f ≠ .tsd) (hsize : 8 ≤ f.size) :
    loadWord 64 (setSlot a k v m) (a + threadShape.offset f) =
      loadWord 64 m (a + threadShape.offset f) := by
  have hbelow := ThreadIdentity.field_below hf
  refine loadWord_storeWord_disjoint (.inl ?_)
  rw [slotAt]
  omega

/-- A call of the start routine that the thread was made for, on the stack that it was given. -/
def Made.ownCall (K : Platform) (t : Made) : Call :=
  let rsp := t.alloc.thread.stackaddr - BitVec.ofNat 64 K.gap
  ⟨t.routine, t.argument, t.alloc.thread.addr, rsp - 40, rsp - 16⟩

def Made.Content (K : Platform) (t : Made) (m : Memory) : Prop :=
  match t.phase with
  | .created => loadWord 64 m (t.record + threadShape.offset .startFun) = t.routine ∧
      loadWord 64 m (t.record + threadShape.offset .arg) = t.argument ∧
      slot m t.record tsdSelf = t.alloc.thread.addr
  | .running => loadWord 64 m (t.stack - K.gap - 8) = 0
  | .exited v => exitValueAt m t.record = v
  | .leaving _ | .freed => True

theorem content_created (hphase : t.phase = .created) : t.Content K m ↔
    loadWord 64 m (t.record + threadShape.offset .startFun) = t.routine ∧
      loadWord 64 m (t.record + threadShape.offset .arg) = t.argument ∧
      slot m t.record tsdSelf = t.alloc.thread.addr := by
  rw [Made.Content, hphase]

theorem content_running (hphase : t.phase = .running) :
    t.Content K m ↔ loadWord 64 m (t.stack - K.gap - 8) = 0 := by
  rw [Made.Content, hphase]

theorem content_exited {v : BitVec 64} (hphase : t.phase = .exited v) :
    t.Content K m ↔ exitValueAt m t.record = v := by
  rw [Made.Content, hphase]

theorem Made.Content.kept (h : t.Content K m) (hsame : ∀ x ∈ t.guarded K, m' x = m x) :
    t.Content K m' := by
  unfold Made.Content at h ⊢
  unfold Made.guarded at hsame
  split at h
  · next hphase =>
    rw [hphase] at hsame
    obtain ⟨hroutine, hargument, hself⟩ := h
    refine ⟨?_, ?_, ?_⟩
    · rw [loadWord_kept fun x hx => hsame x (.inl (.inl hx)), hroutine]
    · rw [loadWord_kept fun x hx => hsame x (.inl (.inr hx)), hargument]
    · rw [slot, loadWord_kept fun x hx => hsame x (.inr hx), ← hself, slot]
  · next hphase =>
    rw [hphase] at hsame
    rw [loadWord_kept hsame, h]
  · next v hphase =>
    rw [hphase] at hsame
    rw [exitValueAt, loadWord_kept hsame, ← h, exitValueAt]
  · trivial
  · trivial

structure Placed (K : Platform) (t : Made) : Prop where
  record : t.alloc.thread.record ⊆ t.alloc.mapping
  apart : Disjoint (entryBytes K t.stack) t.alloc.thread.record
  room : K.gap + 40 ≤ t.stack
  aligned : t.stack % 16 = 0 ↔ t.attr.stackaddr ≠ 0 ∨
    ((zPthreadAttrGuardsize K.toPaging t.attr).toNat +
      (zPthreadAttrStacksize t.attr).toNat) % 16 = 0

theorem field_in_record (t : Made) {f : ThreadField} (hf : f.size = 8) :
    wordBytes (t.record + threadShape.offset f) ⊆ t.alloc.thread.record :=
  word_in_record hf t.record

theorem self_in_record (t : Made) :
    wordBytes (slotAt t.record tsdSelf) ⊆ t.alloc.thread.record := by
  have hinside := ThreadIdentity.Key.inside (k := tsdSelf) (by decide) t.record
  have hlow : t.record ≤ slotAt t.record tsdSelf := by
    rw [slotAt, Nat.add_assoc]
    exact Nat.le_add_right _ _
  exact Set.Ico_subset_Ico hlow hinside

theorem Placed.record_owned (h : Placed K t) (hfreed : t.phase ≠ .freed) :
    t.alloc.thread.record ⊆ t.owned K := by
  unfold Made.owned
  split
  · exact h.record.trans Set.subset_union_left
  · exact h.record.trans Set.subset_union_left
  · exact h.record.trans Set.subset_union_left
  · exact subset_rfl
  · next hphase => exact absurd hphase hfreed

theorem Placed.guarded_owned (h : Placed K t) : t.guarded K ⊆ t.owned K := by
  have hroom := h.room
  unfold Made.guarded
  split
  · next hphase =>
    have hrecord := h.record_owned (by rw [hphase]; decide)
    refine Set.union_subset (Set.union_subset ?_ ?_) ((self_in_record t).trans hrecord)
    · exact (field_in_record t rfl).trans hrecord
    · exact (field_in_record t rfl).trans hrecord
  · next hphase =>
    have howned : t.owned K = t.alloc.mapping ∪ entryBytes K t.stack := by
      unfold Made.owned
      rw [hphase]
    rw [howned]
    refine Set.Subset.trans (Set.Ico_subset_Ico ?_ ?_) Set.subset_union_right <;> omega
  · next v hphase =>
    exact (field_in_record t rfl).trans (h.record_owned (by rw [hphase]; nofun))
  · exact Set.empty_subset _
  · exact Set.empty_subset _

def initNew (a : Allocation) (fresh : Memory) (r : RecordInit) (m : Memory) : Memory :=
  ThreadIdentity.zPthreadStructInit a.thread.addr.toNat (initOf r a.thread)
    fun x => if a.addr.toNat ≤ x ∧ x < a.addr.toNat + a.size.toNat then fresh x else m x

theorem initNew_record {a : Allocation} (hrecord : a.thread.record ⊆ a.mapping)
    (fresh : Memory) (r : RecordInit) (m : Memory) : Changes a.mapping m (initNew a fresh r m) ∧
      ThreadIdentity.Names (initNew a fresh r m) a.thread.addr.toNat := by
  have hmapped : Changes a.mapping m
      fun x => if a.addr.toNat ≤ x ∧ x < a.addr.toNat + a.size.toNat then fresh x else m x :=
    fun x hx => if_neg hx
  obtain ⟨hinit, hnames⟩ := ThreadIdentity.structInit_record a.thread.addr.toNat
    (initOf r a.thread)
    fun x => if a.addr.toNat ≤ x ∧ x < a.addr.toNat + a.size.toNat then fresh x else m x
  exact ⟨hmapped.trans ((changes_of_within hinit.within).mono hrecord), hnames⟩

theorem writeNew_changes {a : Allocation} (hrecord : a.thread.record ⊆ a.mapping)
    (fresh : Memory) (r : RecordInit) (routine argument : BitVec 64) (m : Memory) :
    Changes a.mapping m (writeNew a fresh r routine argument m) := by
  have harg := changes_setField (a := a.thread.addr.toNat) (f := .arg) argument
    (initNew a fresh r m) (by decide) (by decide)
  have hfun := changes_setField (a := a.thread.addr.toNat) (f := .startFun) routine
    (setField a.thread.addr.toNat .arg argument (initNew a fresh r m)) (by decide) (by decide)
  exact ((initNew_record hrecord fresh r m).1.trans (harg.mono hrecord)).trans
    (hfun.mono hrecord)

theorem kernelPort_changes {a : Allocation} (hrecord : a.thread.record ⊆ a.mapping)
    (port : BitVec 32) (m : Memory) :
    Changes a.mapping m (kernelPort a.thread.addr.toNat port m) :=
  (changes_of_within (ThreadIdentity.within_setSlot _ _ _ (by decide))).mono hrecord

theorem created_content (h : Placed K t) (hphase : t.phase = .created) (fresh : Memory)
    (r : RecordInit) (port : BitVec 32) (m : Memory) :
    t.Content K (kernelPort t.record port
      (writeNew t.alloc fresh r t.routine t.argument m)) := by
  have hwrite : writeNew t.alloc fresh r t.routine t.argument m =
      setField t.record .startFun t.routine
        (setField t.record .arg t.argument (initNew t.alloc fresh r m)) := rfl
  obtain ⟨-, hnames⟩ := initNew_record h.record fresh r m
  rw [content_created hphase, hwrite]
  refine ⟨?_, ?_, ?_⟩
  · rw [kernelPort, field_setSlot _ _ (by decide) (by decide)]
    exact loadWord_storeWord_same _ _ _ rfl
  · rw [kernelPort, field_setSlot _ _ (by decide) (by decide),
      field_setField _ _ (by decide) (by decide) (by decide)]
    exact loadWord_storeWord_same _ _ _ rfl
  · rw [kernelPort, ThreadIdentity.slot_setSlot_other _ _ _ (by decide),
      ThreadIdentity.slot_setField _ _ _ _ (by decide) (by decide),
      ThreadIdentity.slot_setField _ _ _ _ (by decide) (by decide)]
    have hself : BitVec.ofNat 64 t.record = t.alloc.thread.addr := by
      rw [Made.record, BitVec.ofNat_toNat, BitVec.setWidth_eq]
    exact hnames.self.trans hself

theorem gap_toNat (K : Platform) : (BitVec.ofNat 64 K.gap).toNat = K.gap := by
  have hsmall := K.gap_small
  rw [BitVec.toNat_ofNat, Nat.mod_eq_of_lt (by omega)]

theorem entry_toNat (h : Placed K t) :
    (t.alloc.thread.stackaddr - BitVec.ofNat 64 K.gap).toNat = t.stack - K.gap := by
  have hroom := h.room
  have hle : BitVec.ofNat 64 K.gap ≤ t.alloc.thread.stackaddr := by
    rw [BitVec.le_def, gap_toNat]
    exact Nat.le_of_add_right_le hroom
  rw [BitVec.toNat_sub_of_le hle, gap_toNat, Made.stack]

theorem entry_code (h : Placed K t) {e : Registers} (he : EntryOf K t e) (m : Memory) :
    let q := zThreadStart K.ra ⟨e, m⟩
    Changes (entryBytes K t.stack) m q.mem ∧ loadWord 64 q.mem (t.stack - K.gap - 8) = 0 ∧
      q.rdi.toNat = t.record ∧ q.gs = t.record + threadShape.offset .tsd ∧
      q.rsp = (t.ownCall K).rsp ∧ q.rbp = (t.ownCall K).rbp := by
  have hroom := h.room
  have hsp : e.rsp.toNat = t.stack - K.gap := by rw [he.rsp, entry_toNat h]
  have hfar : 40 ≤ e.rsp.toNat := by omega
  obtain ⟨hrdi, hgs, hrsp, hrbp, hchanges, hzero⟩ := zThreadStart_frame K.ra (m := ⟨e, m⟩) hfar
  dsimp only at hchanges hzero hrsp hrbp hrdi hgs
  rw [hsp] at hchanges hzero
  refine ⟨hchanges.mono ?_, hzero, ?_, ?_, ?_, ?_⟩
  · apply Set.Ico_subset_Ico <;> omega
  · rw [hrdi, he.rdi, Made.record]
  · exact hgs.trans he.gs
  · rw [hrsp, he.rsp, Made.ownCall]
  · rw [hrbp, he.rsp, Made.ownCall]

theorem start_code (h : Placed K t) (hphase : t.phase = .created) (hm : t.Content K m)
    {e : Registers} (he : EntryOf K t e) (id : BitVec 64) :
    let r := zPthreadStart id (zThreadStart K.ra ⟨e, m⟩)
    Changes (entryBytes K t.stack ∪ t.alloc.thread.record) m r.1 ∧ r.2 = t.ownCall K ∧
      loadWord 64 r.1 (t.stack - K.gap - 8) = 0 := by
  obtain ⟨hchanges, hzero, hrdi, hgs, hrsp, hrbp⟩ := entry_code h he m
  generalize zThreadStart K.ra ⟨e, m⟩ = q at hchanges hzero hrdi hgs hrsp hrbp
  obtain ⟨hroutine, hargument, hself⟩ := (content_created hphase).mp hm
  have hroom := h.room
  -- the words of the record are not on the stack
  have hkept : ∀ a, wordBytes a ⊆ t.alloc.thread.record →
      loadWord 64 q.mem a = loadWord 64 m a := fun a hsub =>
    loadWord_kept fun x hx => hchanges x (Set.disjoint_right.mp h.apart (hsub hx))
  have hslot : wordBytes (slotAt t.record tsdSelf) ⊆ t.alloc.thread.record := self_in_record t
  have hcall : zPthreadStart id q = (setField t.record .threadId (zPthreadSelfid id) q.mem,
      t.ownCall K) := by
    have h₁ : loadWord 64 (setField t.record .threadId (zPthreadSelfid id) q.mem)
        (t.record + threadShape.offset .startFun) = t.routine := by
      rw [field_setField _ _ (by decide) (by decide) (by decide),
        hkept _ (field_in_record t rfl), hroutine]
    have h₂ : loadWord 64 (setField t.record .threadId (zPthreadSelfid id) q.mem)
        (t.record + threadShape.offset .arg) = t.argument := by
      rw [field_setField _ _ (by decide) (by decide) (by decide),
        hkept _ (field_in_record t rfl), hargument]
    have h₃ : loadWord 64 (setField t.record .threadId (zPthreadSelfid id) q.mem)
        (q.gs + tsdSelf * 8) = t.alloc.thread.addr := by
      have hslots : q.gs + tsdSelf * 8 = slotAt t.record tsdSelf := by rw [hgs, slotAt]
      rw [hslots, ← slot, ThreadIdentity.slot_setField _ _ _ _ (by decide) (by decide), slot,
        hkept _ hslot, ← slot, hself]
    simp only [zPthreadStart, hrdi, h₁, h₂, h₃, hrsp, hrbp]
    rfl
  rw [hcall]
  dsimp only
  have hid : Changes t.alloc.thread.record q.mem
      (setField t.record .threadId (zPthreadSelfid id) q.mem) :=
    changes_setField (a := t.record) (f := .threadId) _ _ (by decide) (by decide)
  refine ⟨(hchanges.mono Set.subset_union_left).trans (hid.mono Set.subset_union_right), rfl, ?_⟩
  have hframe : wordBytes (t.stack - K.gap - 8) ⊆ entryBytes K t.stack := by
    apply Set.Ico_subset_Ico <;> omega
  refine (loadWord_kept fun x hx => hid x ?_).trans hzero
  exact Set.disjoint_left.mp h.apart (hframe hx)

section Placing

variable {s : State ι} {attr : Attr} {a : Allocation} {mmap : BitVec 64 → BitVec 64}

theorem multiple_aligned (K : Platform) {x : ℕ} (h : x % 2 ^ K.shift = 0) : x % 16 = 0 := by
  have hdvd : 2 ^ 4 ∣ 2 ^ K.shift := Nat.pow_dvd_pow 2 K.page_aligned
  exact Nat.mod_eq_zero_of_dvd (hdvd.trans (Nat.dvd_of_mod_eq_zero h))

theorem allocated_aligned (h : ThreadMapping.zPthreadAllocate K.toPaging mmap attr = some a) :
    attr.stackaddr.toNat % 2 ^ K.shift = 0 := by
  have hpage : K.zPageSize.toNat = 2 ^ K.shift := by
    have hlt : 2 ^ K.shift < 2 ^ 64 := Nat.pow_lt_pow_right (by decide) K.small
    rw [Paging.zPageSize, BitVec.toNat_ofNat, Nat.mod_eq_of_lt hlt]
  have hzero : attr.stackaddr % K.zPageSize = 0 := by
    unfold ThreadMapping.zPthreadAllocate at h
    split at h
    · cases h
    · split at h
      · cases h
      · next hmod => exact not_not.mp hmod
  have hnat := congrArg BitVec.toNat hzero
  rwa [BitVec.toNat_umod, hpage] at hnat

theorem own_placed (h : ThreadMapping.zPthreadAllocate K.toPaging mmap attr = some a)
    (hown : attr.stackaddr = 0) (hu : Usable K s attr a) (routine argument : BitVec 64) :
    Placed K ⟨attr, a, routine, argument, .created⟩ ∧
      entryBytes K a.thread.stackaddr.toNat ⊆ a.mapping := by
  have hstack := ThreadMapping.allocated_own h hown
  have hnested := hstack.nested hu.page (hu.own hown) hu.mapping.ends
  obtain ⟨hstackInside, hrecordInside, hapart⟩ :=
    hstack.placed hu.page (hu.own hown) hu.mapping.ends
  have htop := congrArg BitVec.toNat hstack.stackaddr
  have hleast := hstack.atLeast
  have hsmall := K.gap_small
  have hsub : entryBytes K a.thread.stackaddr.toNat ⊆ a.thread.stack := by
    have haddr := hnested.addr
    have hbottom := hnested.stackbottom
    apply Set.Ico_subset_Ico <;> omega
  refine ⟨⟨hrecordInside, hapart.mono_left hsub, ?_, ?_⟩, hsub.trans hstackInside⟩
  · change _ ≤ a.thread.stackaddr.toNat
    rw [htop, hnested.addr]
    omega
  · have hpage := multiple_aligned K hu.mapping.paged
    change a.thread.stackaddr.toNat % 16 = 0 ↔ _
    dsimp only
    rw [htop, hnested.addr, hown]
    simp only [ne_eq, not_true_eq_false, false_or]
    omega

theorem given_placed (h : ThreadMapping.zPthreadAllocate K.toPaging mmap attr = some a)
    (hgiven : attr.stackaddr ≠ 0) (hu : Usable K s attr a) (routine argument : BitVec 64) :
    Placed K ⟨attr, a, routine, argument, .created⟩ := by
  obtain ⟨hroom, houtside, -⟩ := hu.given hgiven
  have haligned := multiple_aligned K (allocated_aligned h)
  obtain ⟨allocaddr, rfl, -⟩ := ThreadMapping.allocated_eq h
  have hsizes : ThreadMapping.sizesOf K.toPaging attr =
      ⟨ThreadMapping.PTHREAD_SIZE K.toPaging, 0, 0, attr.stacksize⟩ := if_pos hgiven
  have hthread : (ThreadMapping.allocatedAt K.toPaging attr allocaddr).thread.addr = allocaddr ∧
      (ThreadMapping.allocatedAt K.toPaging attr allocaddr).thread.stackaddr = attr.stackaddr := by
    constructor
    · simp only [ThreadMapping.allocatedAt, hsizes, ThreadMapping.zPthreadStructInit]
      exact BitVec.add_zero _
    · simp only [ThreadMapping.allocatedAt, ThreadMapping.zPthreadStructInit, if_pos hgiven]
  have hsize : (ThreadMapping.allocatedAt K.toPaging attr allocaddr).size =
      ThreadMapping.PTHREAD_SIZE K.toPaging := by
    simp only [ThreadMapping.allocatedAt, hsizes]
  have hrecord : (ThreadMapping.allocatedAt K.toPaging attr allocaddr).thread.record ⊆
      (ThreadMapping.allocatedAt K.toPaging attr allocaddr).mapping := by
    have hle := (ThreadMapping.PTHREAD_SIZE_rounded hu.page).le
    unfold ThreadMapping.Thread.record Allocation.mapping
    rw [hthread.1, hsize]
    change Set.Ico _ _ ⊆ Set.Ico allocaddr.toNat _
    apply Set.Ico_subset_Ico
    · exact le_refl _
    · exact Nat.add_le_add_left hle _
  refine ⟨hrecord, (houtside.mono_right hrecord), hroom, ?_⟩
  change BitVec.toNat _ % 16 = 0 ↔ _
  rw [hthread.2]
  exact iff_of_true haligned (.inl hgiven)

theorem new_placed (h : ThreadMapping.zPthreadAllocate K.toPaging mmap attr = some a)
    (hu : Usable K s attr a) (routine argument : BitVec 64) :
    Placed K ⟨attr, a, routine, argument, .created⟩ ∧ ∀ j t, s.made j = some t →
      Disjoint (a.mapping ∪ entryBytes K a.thread.stackaddr.toNat) (t.owned K) := by
  by_cases hown : attr.stackaddr = 0
  · obtain ⟨hplaced, hsub⟩ := own_placed h hown hu routine argument
    refine ⟨hplaced, fun j t ht => ?_⟩
    rw [Set.union_eq_self_of_subset_right hsub]
    exact hu.mapping.apart j t ht
  · refine ⟨given_placed h hown hu routine argument, fun j t ht => ?_⟩
    exact Set.disjoint_union_left.mpr ⟨hu.mapping.apart j t ht, (hu.given hown).apart j t ht⟩

end Placing

section Steps

variable [DecidableEq ι] {s : State ι} {i : ι} {e : Event ι}

def ownCalls (K : Platform) : Option Made → List Call
  | none => []
  | some t => if t.phase = .created then [] else [t.ownCall K]

structure Kept (K : Platform) (s : State ι) : Prop where
  placed : ∀ i t, s.made i = some t → Placed K t
  apart : ∀ i j t u, i ≠ j → s.made i = some t → s.made j = some u →
    Disjoint (t.owned K) (u.owned K)
  content : ∀ i t, s.made i = some t → t.Content K s.mem
  calls : ∀ i, callsOf s.calls i = ownCalls K (s.made i)

theorem callsOf_append (calls : List (ι × Call)) (i j : ι) (c : Call) :
    callsOf (calls ++ [(i, c)]) j = callsOf calls j ++ if i = j then [c] else [] := by
  unfold callsOf
  rw [List.filter_append, List.map_append]
  by_cases hij : i = j <;> simp [hij]

theorem advance_eq {made : ι → Option Made} (h : made i = some t) (phase : Phase) :
    advance made i phase = Function.update made i (some { t with phase := phase }) := by
  rw [advance, h]
  rfl

theorem update_cases {made : ι → Option Made} {j : ι}
    (h : Function.update made i (some t) j = some u) :
    (j = i ∧ u = t) ∨ (j ≠ i ∧ made j = some u) := by
  by_cases hj : j = i
  · subst hj
    rw [Function.update_self] at h
    exact .inl ⟨rfl, (Option.some.inj h).symm⟩
  · exact .inr ⟨hj, (Function.update_of_ne hj _ _).symm.trans h⟩

/-- A step that writes only to what one thread owns says nothing new of the others. -/
theorem Kept.others (h : Kept K s) (hm : Changes S s.mem m) {j : ι} (hu : s.made j = some u)
    (hdisjoint : Disjoint S (u.owned K)) : u.Content K m := by
  refine (h.content j u hu).kept fun x hx => hm x fun hin => ?_
  exact Set.disjoint_left.mp hdisjoint hin ((h.placed j u hu).guarded_owned hx)

theorem Kept.updated (h : Kept K s) {calls : List (ι × Call)} (hplaced : Placed K t)
    (hapart : ∀ j u, j ≠ i → s.made j = some u → Disjoint (t.owned K) (u.owned K))
    (hm : Changes S s.mem m)
    (hS : ∀ j u, j ≠ i → s.made j = some u → Disjoint S (u.owned K)) (hcontent : t.Content K m)
    (hown : callsOf calls i = ownCalls K (some t))
    (hothers : ∀ j, j ≠ i → callsOf calls j = callsOf s.calls j) :
    Kept K ⟨m, Function.update s.made i (some t), calls⟩ where
  placed j u hu := by
    obtain ⟨-, rfl⟩ | ⟨-, hu'⟩ := update_cases hu
    · exact hplaced
    · exact h.placed j u hu'
  apart j k u v hjk hu hv := by
    obtain ⟨hj, rfl⟩ | ⟨hj, hu'⟩ := update_cases hu
    · obtain ⟨hk, -⟩ | ⟨hk, hv'⟩ := update_cases hv
      · exact absurd (hj.trans hk.symm) hjk
      · exact hapart k v hk hv'
    · obtain ⟨-, rfl⟩ | ⟨-, hv'⟩ := update_cases hv
      · exact (hapart j u hj hu').symm
      · exact h.apart j k u v hjk hu' hv'
  content j u hu := by
    obtain ⟨-, rfl⟩ | ⟨hj, hu'⟩ := update_cases hu
    · exact hcontent
    · exact h.others hm hu' (hS j u hj hu')
  calls j := by
    dsimp only
    by_cases hj : j = i
    · rw [hj, hown, Function.update_self]
    · rw [hothers j hj, h.calls j, Function.update_of_ne hj]

theorem Kept.advanced (h : Kept K s) (hi : s.made i = some t) {phase : Phase}
    {calls : List (ι × Call)} (hsub : ({ t with phase := phase } : Made).owned K ⊆ t.owned K)
    (hm : Changes (t.owned K) s.mem m) (hcontent : ({ t with phase := phase } : Made).Content K m)
    (hown : callsOf calls i = ownCalls K (some { t with phase := phase }))
    (hothers : ∀ j, j ≠ i → callsOf calls j = callsOf s.calls j) :
    Kept K ⟨m, advance s.made i phase, calls⟩ := by
  have hplaced := h.placed i t hi
  have hapart : ∀ j u, j ≠ i → s.made j = some u → Disjoint (t.owned K) (u.owned K) :=
    fun j u hj hu => h.apart i j t u hj.symm hi hu
  rw [advance_eq hi]
  exact h.updated ⟨hplaced.record, hplaced.apart, hplaced.room, hplaced.aligned⟩
    (fun j u hj hu => (hapart j u hj hu).mono_left hsub) hm hapart hcontent hown hothers

/-- After the start a thread makes no other call from `z_pthread_start`. -/
theorem Kept.continued (h : Kept K s) (hi : s.made i = some t) {phase : Phase}
    (hstarted : t.phase ≠ .created) (hphase : phase ≠ .created)
    (hsub : ({ t with phase := phase } : Made).owned K ⊆ t.owned K)
    (hm : Changes (t.owned K) s.mem m)
    (hcontent : ({ t with phase := phase } : Made).Content K m) :
    Kept K ⟨m, advance s.made i phase, s.calls⟩ := by
  refine h.advanced hi hsub hm hcontent ?_ fun _ _ => rfl
  rw [h.calls i, hi, ownCalls, ownCalls, if_neg hstarted, if_neg hphase]
  rfl

theorem owned_active
    (hphase : t.phase = .created ∨ t.phase = .running ∨ ∃ v, t.phase = .leaving v) :
    t.owned K = t.alloc.mapping ∪ entryBytes K t.stack := by
  unfold Made.owned
  obtain hphase | hphase | ⟨v, hphase⟩ := hphase <;> rw [hphase]

theorem create_kept (h : Kept K s) {attrs : Option Attr} {addr : BitVec 64} {fresh : Memory}
    {r : RecordInit} {routine argument : BitVec 64} {port : Option (BitVec 32)}
    (he : Enabled K s (.create i attrs addr fresh r routine argument port)) :
    Kept K (next K s (.create i attrs addr fresh r routine argument port)) := by
  obtain ⟨hnone, husable⟩ := he
  cases hcreate : zPthreadCreateInternal K.toPaging (fun _ => addr) attrs with
  | error _ =>
    rw [next, hcreate]
    exact h
  | ok a =>
    obtain ⟨hplaced, hapart⟩ := new_placed (ThreadMapping.created_allocated hcreate)
      (husable a hcreate) routine argument
    have hwrite := writeNew_changes hplaced.record fresh r routine argument s.mem
    cases port with
    | none =>
      rw [next, hcreate]
      refine ⟨h.placed, h.apart, fun j u hu => ?_, h.calls⟩
      exact h.others hwrite hu ((hapart j u hu).mono_left Set.subset_union_left)
    | some port =>
      have hport := hwrite.trans (kernelPort_changes hplaced.record port _)
      rw [next, hcreate]
      refine h.updated hplaced (fun j u _ hu => hapart j u hu) hport
        (fun j u _ hu => (hapart j u hu).mono_left Set.subset_union_left)
        (created_content hplaced rfl fresh r port s.mem) ?_ fun _ _ => rfl
      rw [h.calls i, hnone]
      rfl

theorem start_kept (h : Kept K s) {q : Registers} {id : BitVec 64}
    (he : Enabled K s (.start i q id)) : Kept K (next K s (.start i q id)) := by
  obtain ⟨t, hi, hphase, hentry⟩ := he
  have hplaced := h.placed i t hi
  obtain ⟨hchanges, hcall, hzero⟩ := start_code hplaced hphase (h.content i t hi) hentry id
  have hthis : t.owned K = t.alloc.mapping ∪ entryBytes K t.stack := owned_active (.inl hphase)
  rw [next]
  generalize zPthreadStart id (zThreadStart K.ra ⟨q, s.mem⟩) = r at hchanges hcall hzero ⊢
  refine h.advanced hi ?_ (hchanges.mono ?_) hzero ?_ ?_
  · rw [hthis, owned_active (.inr (.inl rfl))]
    exact subset_rfl
  · rw [hthis]
    refine Set.union_subset Set.subset_union_right ?_
    exact hplaced.record.trans Set.subset_union_left
  · rw [callsOf_append, if_pos rfl, h.calls i, hi, ownCalls, if_pos hphase, hcall]
    rfl
  · intro j hj
    rw [callsOf_append, if_neg (Ne.symm hj), List.append_nil]

theorem terminate_kept (h : Kept K s) {v : BitVec 64} (he : Enabled K s (.terminate i v)) :
    Kept K (next K s (.terminate i v)) := by
  obtain ⟨t, hi, hphase⟩ := he
  have hplaced := h.placed i t hi
  have hrecord := hplaced.record_owned (by rw [hphase]; nofun)
  have hgate := changes_setField (a := t.record) (f := .tlExitGate) (0 : BitVec 32) s.mem
    (by decide) (by decide)
  have hvalue := changes_setField (a := t.record) (f := .tlExitValue) v
    (setField t.record .tlExitGate (0 : BitVec 32) s.mem) (by decide) (by decide)
  rw [next, hi, Option.map_some, Option.getD_some]
  refine h.continued hi (by rw [hphase]; nofun) nofun hrecord
    ((hgate.trans hvalue).mono hrecord) ?_
  exact loadWord_storeWord_same _ _ _ rfl

theorem step_kept (h : Kept K s) (e : Event ι) (he : Enabled K s e) : Kept K (next K s e) := by
  cases e with
  | create i attrs addr fresh r routine argument port => exact create_kept h he
  | start i q id => exact start_kept h he
  | leave i v =>
    obtain ⟨t, hi, hphase⟩ := he
    refine h.continued hi (by rw [hphase]; nofun) nofun ?_ (fun _ _ => rfl) trivial
    rw [owned_active (.inr (.inl hphase)), owned_active (.inr (.inr ⟨v, rfl⟩))]
    exact subset_rfl
  | terminate i v => exact terminate_kept h he
  | free i =>
    obtain ⟨t, v, hi, hphase⟩ := he
    exact h.continued hi (by rw [hphase]; nofun) nofun (Set.empty_subset _) (fun _ _ => rfl)
      trivial
  | store m => exact ⟨h.placed, h.apart, fun i t hi => (h.content i t hi).kept (he i t hi), h.calls⟩

theorem kept_inductive (K : Platform) : Inductive (startSystem (ι := ι) K) anyStep (Kept K) where
  initial s := by
    rintro ⟨hnone, hcalls⟩
    refine ⟨?_, ?_, ?_, fun i => ?_⟩
    · intro i t hi
      cases (hnone i).symm.trans hi
    · intro i j t u _ hi
      cases (hnone i).symm.trans hi
    · intro i t hi
      cases (hnone i).symm.trans hi
    · rw [hcalls, hnone]
      rfl
  step _ e h he _ := step_kept h e he

theorem ownCall_stack (h : Placed K t) :
    (t.ownCall K).rsp.toNat + (K.gap + 40) = t.stack ∧
      (t.ownCall K).rbp.toNat + 8 = t.stack - K.gap - 8 := by
  have hroom := h.room
  have hentry := entry_toNat h
  unfold Made.ownCall
  dsimp only
  generalize t.alloc.thread.stackaddr - BitVec.ofNat 64 K.gap = rsp at hentry ⊢
  constructor <;> bv_omega

/-- In every run a thread that has started has made one call from `z_pthread_start`: of the
routine that it was made for, with the argument that it was made for, and as itself.
`z_pthread_start` is entered below a frame with a null return address, on a stack that is aligned
if the caller has given it and otherwise if guard and stack together are a multiple of 16 bytes.
The value that the thread has left with stays in its record. -/
theorem threads_start_own {s : State ι} (h : Reachable (startSystem K) s) (i : ι) :
    (s.made i = none → callsOf s.calls i = []) ∧ ∀ t, s.made i = some t →
      (t.phase = .created → callsOf s.calls i = []) ∧
      (t.phase ≠ .created → ∃ c, callsOf s.calls i = [c] ∧ c.routine = t.routine ∧
        c.argument = t.argument ∧ c.self = t.alloc.thread.addr ∧
        c.rsp.toNat + (K.gap + 40) = t.stack ∧
        ((c.rsp.toNat + 8) % 16 = 0 ↔ t.attr.stackaddr ≠ 0 ∨
          ((zPthreadAttrGuardsize K.toPaging t.attr).toNat +
            (zPthreadAttrStacksize t.attr).toNat) % 16 = 0) ∧
        (t.phase = .running → loadWord 64 s.mem (c.rbp.toNat + 8) = 0)) ∧
      ∀ v, t.phase = .exited v → exitValueAt s.mem t.record = v := by
  have hs := (kept_inductive K).reachable h
  have hcalls := hs.calls i
  refine ⟨fun hnone => ?_, fun t ht => ⟨fun hphase => ?_, fun hphase => ?_, fun v hphase => ?_⟩⟩
  · rw [hcalls, hnone, ownCalls]
  · rw [hcalls, ht, ownCalls, if_pos hphase]
  · have hplaced := hs.placed i t ht
    obtain ⟨hrsp, hrbp⟩ := ownCall_stack hplaced
    rw [ht, ownCalls, if_neg hphase] at hcalls
    refine ⟨t.ownCall K, hcalls, rfl, rfl, rfl, hrsp, ?_, fun hrunning => ?_⟩
    · rw [← hplaced.aligned]
      have hgap := K.gap_aligned
      omega
    · rw [hrbp]
      exact (content_running hrunning).mp (hs.content i t ht)
  · exact (content_exited hphase).mp (hs.content i t ht)

end Steps

def smallPlatform : Platform where
  toPaging := ThreadMapping.smallPages
  ra := 0x10000A0B5
  gap := 128
  page_aligned := by decide
  gap_aligned := by decide
  gap_small := by decide

def firstMade (phase : Phase) : Made :=
  ⟨ThreadMapping.zPthreadAttrDefault, ThreadMapping.defaultThread, 0x100004000, 7, phase⟩

def firstEntry : Registers where
  rdi := ThreadMapping.defaultThread.thread.addr
  esi := 0x103
  rdx := 0x100004000
  rcx := 7
  r8 := ThreadMapping.defaultThread.thread.stackaddr
  r9d := 0x1000000
  rsp := ThreadMapping.defaultThread.thread.stackaddr - 128
  rbp := 0
  gs := (firstMade .created).record + registrationData.tsdOffset

def firstCreate : Event ℕ :=
  .create 0 none 0x10002C000 (fun _ => 0) ⟨0, none, 0, 0, 0, 0, 0, 0, 0, 0⟩ 0x100004000 7
    (some 0x103)

def firstRun : List (Event ℕ) := [.start 0 firstEntry 0x20A, .leave 0 9, .terminate 0 9]

def noneMade : State ℕ := ⟨fun _ => 0, fun _ => none, []⟩

def firstStarted : State ℕ := next smallPlatform noneMade firstCreate

def firstExited : State ℕ := runTrace (startSystem smallPlatform) firstStarted firstRun

theorem firstCreated : zPthreadCreateInternal smallPlatform.toPaging (fun _ => 0x10002C000) none =
    .ok ThreadMapping.defaultThread := rfl

theorem firstCreate_enabled : Enabled smallPlatform noneMade firstCreate := by
  refine ⟨rfl, fun a hcreate => ?_⟩
  obtain rfl := Except.ok.inj (firstCreated.symm.trans hcreate)
  refine ⟨⟨by decide +kernel, by decide +kernel, nofun⟩, by decide, fun _ => ?_, ?_⟩
  · decide +kernel
  · exact fun hgiven => absurd rfl hgiven

theorem firstStarted_made : firstStarted.made 0 = some (firstMade .created) := by
  rw [firstStarted, firstCreate, next, firstCreated]
  rfl

theorem firstMade_advance {made : ℕ → Option Made} {p : Phase} (q : Phase)
    (h : made 0 = some (firstMade p)) : advance made 0 q 0 = some (firstMade q) := by
  rw [advance_eq h, Function.update_self]
  rfl

theorem firstRun_valid {s : State ℕ} (h : s.made 0 = some (firstMade .created)) :
    ValidTrace (startSystem smallPlatform) anyStep s firstRun ∧
      (runTrace (startSystem smallPlatform) s firstRun).made 0 = some (firstMade (.exited 9)) := by
  have hstart : ∀ s : State ℕ, (next smallPlatform s (.start 0 firstEntry 0x20A)).made =
      advance s.made 0 .running := fun _ => rfl
  have hleave : ∀ s : State ℕ, (next smallPlatform s (.leave 0 9)).made =
      advance s.made 0 (.leaving 9) := fun _ => rfl
  have hterminate : ∀ s : State ℕ, (next smallPlatform s (.terminate 0 9)).made =
      advance s.made 0 (.exited 9) := fun _ => rfl
  have hrunning := firstMade_advance .running h
  rw [← hstart] at hrunning
  have hleaving := firstMade_advance (.leaving 9) hrunning
  rw [← hleave] at hleaving
  have hexited := firstMade_advance (.exited 9) hleaving
  rw [← hterminate] at hexited
  have hentry : EntryOf smallPlatform (firstMade .created) firstEntry := ⟨rfl, rfl, rfl⟩
  exact ⟨⟨⟨⟨_, h, rfl, hentry⟩, trivial⟩, ⟨⟨_, hrunning, rfl⟩, trivial⟩,
    ⟨⟨_, hleaving, rfl⟩, trivial⟩, trivial⟩, hexited⟩

theorem firstExited_reachable : Reachable (startSystem smallPlatform) firstExited := by
  have hempty : (startSystem smallPlatform).Initial noneMade := ⟨fun _ => rfl, rfl⟩
  have hinitial : Reachable (startSystem smallPlatform) noneMade := .initial hempty
  have hnext : (startSystem smallPlatform).next noneMade firstCreate = firstStarted := rfl
  have hfirst : Reachable (startSystem smallPlatform) firstStarted := by
    rw [← hnext]
    exact ReachableUnder.step hinitial firstCreate_enabled trivial
  exact hfirst.trans ((Execution.refl _).trace firstRun (firstRun_valid firstStarted_made).1)

theorem threads_start_own_first :
    ∃ c, callsOf firstExited.calls 0 = [c] ∧ c.routine = 0x100004000 ∧ c.argument = 7 ∧
      (c.rsp.toNat + 8) % 16 = 0 ∧
      exitValueAt firstExited.mem ThreadMapping.defaultThread.thread.addr.toNat = 9 := by
  obtain ⟨-, hall⟩ := threads_start_own firstExited_reachable 0
  obtain ⟨-, hstarted, hexited⟩ := hall _ (firstRun_valid firstStarted_made).2
  obtain ⟨c, hcalls, hroutine, hargument, -, -, haligned, -⟩ := hstarted nofun
  refine ⟨c, hcalls, hroutine, hargument, haligned.mpr (.inr ?_), hexited 9 rfl⟩
  decide +kernel

end ThreadStart

import LibSystemCall.GuardedSystem
import LibSystemCall.RegionLedger
import LibSystemCall.ThreadCreate

/-! # What is mapped while threads come and go

Any number of threads are created, fail to be created, are detached and end; a record that a
thread leaves behind is given back by `z_pthread_deallocate` in the join. The kernel maps where
nothing is mapped. -/
namespace ThreadLedger

open GuardedSystem RegionLedger ThreadMapping ThreadUnmapping ThreadCreate

/-- A thread that runs, or a record that was kept when its thread ended. -/
inductive Slot where
  | unused
  | running (t : Thread)
  | kept (t : Thread)

def Slot.range : Slot → Set ℕ
  | .unused => ∅
  | .running t | .kept t => rangeOf (t.freeaddr, t.freesize)

structure State (ι : Type*) where
  mapped : Set ℕ
  slot : ι → Slot

inductive Event (ι : Type*) where
  | create (i : ι) (attrs : Option SchedAttr) (createFlags : BitVec 32)
    (mmap : BitVec 64 → BitVec 64) (starts : Bool)
  | detach (i : ι)
  | exit (i : ι) (x : Exit)
  | deallocate (i : ι)

/-- The page size, `&_main_thread`, and what is mapped before the first thread is created. -/
structure Process where
  paging : Paging
  main : BitVec 64
  base : Set ℕ
  main_mapped : main.toNat ∈ base

variable {ι : Type*}

/-- `z_mmap` fails, or maps a range that does not wrap and is not mapped. -/
def Fresh (P : Process) (s : State ι) (attrs : Option SchedAttr)
    (mmap : BitVec 64 → BitVec 64) : Prop :=
  ∀ a, ThreadMapping.zPthreadCreateInternal P.paging mmap (attrs.map (·.toAttr)) = .ok a →
    a.addr.toNat + a.size.toNat < 2 ^ 64 ∧ Disjoint s.mapped (rangeOf (a.addr, a.size))

def Enabled (P : Process) (s : State ι) : Event ι → Prop
  | .create i attrs _ mmap _ => s.slot i = .unused ∧ Fresh P s attrs mmap ∧
    Fits P.paging (effective (attrs.map (·.toAttr)))
  | .detach i => ∃ t, s.slot i = .running t
  | .exit i x => x.main = P.main ∧ ∃ t, s.slot i = .running t
  | .deallocate i => ∃ t, s.slot i = .kept t

def deallocateCalls (main : BitVec 64) (t : Thread) : List KernelCall :=
  if t.addr ≠ main then [.munmap t.freeaddr t.freesize] else []

def effect (P : Process) (s : State ι) : Event ι → List KernelCall × Slot
  | .create _ attrs createFlags mmap starts =>
    let c := zPthreadCreateInternal P.paging P.main mmap starts attrs createFlags
    (c.calls, c.thread.elim .unused .running)
  | .detach i => ([], match s.slot i with
    | .running t => .running { t with tlJoinable := false }
    | slot => slot)
  | .exit i x => match s.slot i with
    | .running t =>
      let e := zPthreadTerminate P.paging x t
      ([.bsdthreadTerminate e.range.1 e.range.2], if e.kept then .kept e.thread else .unused)
    | slot => ([], slot)
  | .deallocate i => match s.slot i with
    | .kept t => (deallocateCalls P.main t, .unused)
    | slot => ([], slot)

def Event.thread : Event ι → ι
  | .create i _ _ _ _ | .detach i | .exit i _ | .deallocate i => i

variable [DecidableEq ι]

def next (P : Process) (s : State ι) (e : Event ι) : State ι where
  mapped := applyCalls (effect P s e).1 s.mapped
  slot := Function.update s.slot e.thread (effect P s e).2

def threadSystem (P : Process) : System (State ι) (Event ι) where
  Initial s := s.mapped = P.base ∧ ∀ i, s.slot i = .unused
  Enabled := Enabled P
  next := next P

structure Recorded (P : Process) (t : Thread) : Prop where
  other : t.addr ≠ P.main
  record : t.addr.toNat ∈ rangeOf (t.freeaddr, t.freesize)
  fits : t.freeaddr.toNat + t.freesize.toNat < 2 ^ 64

def Slot.Sound (P : Process) : Slot → Prop
  | .unused => True
  | .running t | .kept t => Recorded P t

structure Accounted (P : Process) (s : State ι) : Prop where
  parted : Parted P.base s.mapped fun i => (s.slot i).range
  sound : ∀ i, (s.slot i).Sound P

variable {P : Process} {s : State ι}

/-- The range of a thread that ends is what it gives back and, apart from that, what stays with
a record that is kept. -/
theorem terminated_parts {x : Exit} {t : Thread} (ht : Recorded P t) (hx : x.main = P.main) :
    let e := zPthreadTerminate P.paging x t
    let rest := if e.kept then Slot.kept e.thread else .unused
    rangeOf (t.freeaddr, t.freesize) = rangeOf e.range ∪ rest.range ∧
      Disjoint (rangeOf e.range) rest.range ∧ rest.Sound P := by
  have hmain : t.addr ≠ x.main := hx ▸ ht.other
  obtain ⟨size, ⟨hinside, hbelow⟩, hsplit⟩ := splitRecord_eq P.paging hmain ht.fits
  have hrecord := ht.record
  have hfits := ht.fits
  cases hkeep : keepsStruct x t with
  | false =>
    rw [terminated_whole hsplit hmain hkeep]
    simp only [Bool.false_eq_true, if_false, Slot.range, rangeOf_nonzero]
    exact ⟨(Set.union_empty _).symm, Set.disjoint_empty _, trivial⟩
  | true =>
    rw [terminated_kept hsplit hkeep]
    have hrest := rangeOf_split hinside ht.fits
    simp only [if_true, Slot.range, rangeOf_nonzero, hrest]
    have haddr : (t.freeaddr + size).toNat = t.freeaddr.toNat + size.toNat := by
      rw [BitVec.toNat_add]
      omega
    have hsize : (t.freesize - size).toNat = t.freesize.toNat - size.toNat := by
      rw [BitVec.toNat_sub]
      omega
    refine ⟨?_, Set.Ico_disjoint_Ico_same, ht.other, ?_, ?_⟩
    · exact (Set.Ico_union_Ico_eq_Ico (Nat.le_add_right _ _)
        (Nat.add_le_add_left hinside _)).symm
    · rw [hrest]
      obtain ⟨hlow, hhigh⟩ := hrecord
      refine ⟨?_, hhigh⟩
      obtain rfl | hle := hbelow
      · exact hlow
      · exact hle
    · dsimp only
      omega

theorem ranges_next (e : Event ι) :
    (fun i => ((next P s e).slot i).range) =
      Function.update (fun i => (s.slot i).range) e.thread (effect P s e).2.range := by
  funext i
  by_cases hi : i = e.thread
  · subst hi
    simp [next]
  · simp [next, hi]

theorem sound_next {e : Event ι} (h : Accounted P s) (he : (effect P s e).2.Sound P) (i : ι) :
    ((next P s e).slot i).Sound P := by
  by_cases hi : i = e.thread
  · subst hi
    simpa [next] using he
  · simpa [next, hi] using h.sound i

/-- What a step should do to the memory: account for it, and take away nothing but from the
thread that it is about. -/
def Keeps (P : Process) (s : State ι) (e : Event ι) : Prop :=
  Accounted P (next P s e) ∧ s.mapped \ (next P s e).mapped ⊆ (s.slot e.thread).range

theorem keeps_give (h : Accounted P s) {e : Event ι} {r : Set ℕ}
    (hmapped : (next P s e).mapped = s.mapped \ r)
    (hsplit : (s.slot e.thread).range = r ∪ (effect P s e).2.range)
    (hrest : Disjoint r (effect P s e).2.range) (hsound : (effect P s e).2.Sound P) :
    Keeps P s e := by
  refine ⟨⟨?_, sound_next h hsound⟩, ?_⟩
  · rw [ranges_next, hmapped]
    exact h.parted.give hsplit hrest
  · rw [hmapped, hsplit, Set.sdiff_sdiff_right_self]
    exact Set.inter_subset_right.trans Set.subset_union_left

theorem keeps_create (h : Accounted P s) {i : ι} {attrs : Option SchedAttr}
    {createFlags : BitVec 32} {mmap : BitVec 64 → BitVec 64} {starts : Bool}
    (he : Enabled P s (.create i attrs createFlags mmap starts)) :
    Keeps P s (.create i attrs createFlags mmap starts) := by
  obtain ⟨hunused, hfresh, hfits⟩ := he
  have hmain : P.main.toNat ∈ s.mapped := by
    rw [h.parted.mapped]
    exact .inl P.main_mapped
  -- the record is in the new mapping, where the record of the main thread is not
  have hrecord : ∀ a, ThreadMapping.zPthreadCreateInternal P.paging mmap
      (attrs.map (·.toAttr)) = .ok a →
      a.thread.addr.toNat ∈ rangeOf (a.addr, a.size) ∧ a.thread.addr ≠ P.main := by
    intro a hcreate
    obtain ⟨hend, hdisjoint⟩ := hfresh a hcreate
    have hin := record_mapped (created_allocated hcreate) hfits hend
    exact ⟨hin, fun heq => Set.disjoint_left.mp hdisjoint hmain (heq ▸ hin)⟩
  obtain ⟨-, hsome, hnone⟩ := created_mapped starts createFlags
    (fun a hcreate => ⟨(hfresh a hcreate).2, (hrecord a hcreate).2⟩)
  cases hthread : (zPthreadCreateInternal P.paging P.main mmap starts attrs createFlags).thread with
  | none =>
    have hslot : (effect P s (.create i attrs createFlags mmap starts)).2 = .unused := by
      simp [effect, hthread]
    refine keeps_give h (r := ∅) ((hnone hthread).trans Set.sdiff_empty.symm) ?_ ?_ ?_
    · change (s.slot i).range = _
      rw [hslot, hunused]
      exact (Set.union_empty _).symm
    · exact Set.empty_disjoint _
    · rw [hslot]
      trivial
  | some t =>
    have hslot : (effect P s (.create i attrs createFlags mmap starts)).2 = .running t := by
      simp [effect, hthread]
    obtain ⟨a, hcreate, rfl, hmapped⟩ := hsome t hthread
    obtain ⟨haddr, hsize⟩ := allocated_free (created_allocated hcreate)
    obtain ⟨hend, hdisjoint⟩ := hfresh a hcreate
    obtain ⟨hin, hother⟩ := hrecord a hcreate
    rw [← haddr, ← hsize] at hend hdisjoint hin
    have hnext : (next P s (.create i attrs createFlags mmap starts)).mapped =
        s.mapped ∪ rangeOf (a.thread.freeaddr, a.thread.freesize) := hmapped
    refine ⟨⟨?_, sound_next h ?_⟩, ?_⟩
    · rw [ranges_next, hslot, hnext]
      exact h.parted.grant (by simp only [Event.thread, hunused, Slot.range]) hdisjoint
    · rw [hslot]
      exact ⟨hother, hin, hend⟩
    · rw [hnext]
      intro x hx
      exact absurd (.inl hx.1) hx.2

theorem step_keeps (h : Accounted P s) (e : Event ι) (he : Enabled P s e) : Keeps P s e := by
  cases e with
  | create i attrs createFlags mmap starts => exact keeps_create h he
  | detach i =>
    obtain ⟨t, ht⟩ := he
    have hslot : (effect P s (.detach i)).2 = .running { t with tlJoinable := false } := by
      simp [effect, ht]
    have hsound := h.sound i
    rw [ht] at hsound
    refine keeps_give h (r := ∅) Set.sdiff_empty.symm ?_ (Set.empty_disjoint _) ?_
    · rw [hslot, Event.thread, ht]
      exact (Set.empty_union _).symm
    · rw [hslot]
      exact ⟨hsound.other, hsound.record, hsound.fits⟩
  | exit i x =>
    obtain ⟨hx, t, ht⟩ := he
    have hsound := h.sound i
    rw [ht] at hsound
    obtain ⟨hsplit, hdisjoint, hrest⟩ := terminated_parts hsound hx
    refine keeps_give h (r := rangeOf (zPthreadTerminate P.paging x t).range) ?_ ?_ ?_ ?_
    · simp only [next, effect, ht]
      rfl
    · simp only [effect, ht, Event.thread]
      exact hsplit
    · simp only [effect, ht]
      exact hdisjoint
    · simp only [effect, ht]
      exact hrest
  | deallocate i =>
    obtain ⟨t, ht⟩ := he
    have hsound := h.sound i
    rw [ht] at hsound
    refine keeps_give h (r := rangeOf (t.freeaddr, t.freesize)) ?_ ?_ ?_ ?_
    · simp only [next, effect, ht, deallocateCalls, if_pos hsound.other]
      rfl
    · simp only [effect, ht, Event.thread]
      exact (Set.union_empty _).symm
    · simp only [effect, ht]
      exact Set.disjoint_empty _
    · simp only [effect, ht]
      trivial

theorem accounted_inductive (P : Process) :
    Inductive (threadSystem (ι := ι) P) anyStep (Accounted P) where
  initial s h := by
    have hunused := h.2
    refine ⟨⟨?_, ?_, ?_⟩, fun i => by rw [hunused i]; trivial⟩
    · simp [h.1, hunused, Slot.range]
    · intro i j _
      simp [hunused, Slot.range]
    · intro i
      simp [hunused, Slot.range]
  step _ e h he _ := (step_keeps h e he).1

/-- In every run: what is mapped is what was mapped at the start and, apart from it and from
each other, the ranges of the threads; each record is mapped until its range is given back; no
step takes memory from another thread; and when no thread is left, nothing is. -/
theorem threads_accounted {s : State ι} (h : Reachable (threadSystem P) s) :
    Accounted P s ∧
      (∀ e, Enabled P s e → s.mapped \ (next P s e).mapped ⊆ (s.slot e.thread).range) ∧
      ((∀ i, s.slot i = .unused) → s.mapped = P.base) := by
  have hs := (accounted_inductive P).reachable h
  refine ⟨hs, fun e he => (step_keeps hs e he).2, fun hall => hs.parted.returned fun i => ?_⟩
  rw [hall i]
  rfl

/-! One thread on 4 KiB pages, with everything below the mapping in use. -/

def smallProcess : Process := ⟨smallPages, 0x100015000, Set.Iio 0x10002C000, by decide +kernel⟩

def noThreads : State ℕ := ⟨Set.Iio 0x10002C000, fun _ => .unused⟩

def createDefault : Event ℕ := .create 0 none 0 (fun _ => 0x10002C000) true

theorem createDefault_enabled : Enabled smallProcess noThreads createDefault := by
  refine ⟨rfl, fun a hcreate => ?_, by decide, fun _ => by decide +kernel⟩
  obtain rfl : defaultThread = a := Except.ok.inj hcreate
  refine ⟨by decide +kernel, Set.disjoint_left.mpr fun n hlow hin => ?_⟩
  have hat : defaultThread.addr.toNat = 0x10002C000 := by decide +kernel
  have hlow : n < 0x10002C000 := hlow
  have := hin.1
  dsimp only at this
  omega

theorem threads_accounted_default :
    let s := next smallProcess noThreads createDefault
    Accounted smallProcess s ∧
      (∀ e, Enabled smallProcess s e →
        s.mapped \ (next smallProcess s e).mapped ⊆ (s.slot e.thread).range) ∧
      ((∀ i, s.slot i = .unused) → s.mapped = smallProcess.base) :=
  threads_accounted ((ReachableUnder.initial (S := threadSystem smallProcess)
    ⟨rfl, fun _ => rfl⟩).step createDefault_enabled trivial)

end ThreadLedger

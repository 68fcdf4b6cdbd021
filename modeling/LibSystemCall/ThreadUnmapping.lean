import LibSystemCall.ThreadJoin
import LibSystemCall.ThreadMapping

/-! # How the mapping of a thread is given back

`z_pthread_terminate` hands a range to the kernel and, if it keeps the record, leaves the rest
to `z_pthread_deallocate`. -/
namespace ThreadUnmapping

open ThreadRecord WordMask ThreadMapping

def ESRCH : BitVec 64 := 3

/-- `&_main_thread`, the running thread and its stack, the stack limit with 0 for a failure, and
whether there is a joiner when the thread ends and still after it was woken. -/
structure Exit where
  main : BitVec 64
  self : BitVec 64
  currentStack : BitVec 64
  rlimitStack : BitVec 64
  joined : Bool
  stillJoined : Bool

def truncPage (p : Paging) (x : BitVec 64) : BitVec 64 := x &&& ~~~(p.zPageSize - 1)

def roundPage (p : Paging) (x : BitVec 64) : BitVec 64 := truncPage p (x + (p.zPageSize - 1))

def zPthreadGetStacksizeNp (p : Paging) (x : Exit) (t : Thread) : BitVec 64 :=
  let stacksize := t.stackaddr - t.stackbottom
  if t.addr = 0 then ESRCH
  else if t.addr = x.main ∧ stacksize + p.zPageSize ≠ t.freesize then
    if x.rlimitStack = 0 ∨ t.freesize < x.rlimitStack then stacksize
    else roundPage p x.rlimitStack
  else
    let size := if t.addr = x.self ∨ t.addr = x.main then stacksize else 0
    if size ≠ 0 then size else DEFAULT_STACK_SIZE

/-- `keep_thread_struct`. A joiner that is found unsets `tl_joinable`, or `tl_join_ctx` is unset
where it was unset before. -/
def keepsStruct (x : Exit) (t : Thread) : Bool :=
  let tlJoinable := t.tlJoinable && !x.joined
  let tlJoinCtx := x.joined && t.tlJoinable
  tlJoinable || tlJoinCtx && x.stillJoined

/-- The locals `freeaddr` and `freesize_stack`, and the record. -/
def splitRecord (p : Paging) (x : Exit) (t : Thread) : BitVec 64 × BitVec 64 × Thread :=
  if t.freeaddr < t.addr ∧ t.addr < t.freeaddr + t.freesize then
    let freesizeStack := truncPage p (t.addr - t.freeaddr)
    (t.freeaddr, freesizeStack,
      { t with freeaddr := t.freeaddr + freesizeStack, freesize := t.freesize - freesizeStack })
  else if t.addr = x.main then
    let freeaddr := t.stackaddr - zPthreadGetStacksizeNp p x t
    (freeaddr, truncPage p x.currentStack - freeaddr, t)
  else (t.freeaddr, 0, t)

/-- The address and the size for `z_bsdthread_terminate`, and the record as it is left. -/
structure Ended where
  range : BitVec 64 × BitVec 64
  thread : Thread
  kept : Bool

def zPthreadTerminate (p : Paging) (x : Exit) (t : Thread) : Ended :=
  let (freeaddr, freesizeStack, t') := splitRecord p x t
  let keepThreadStruct := keepsStruct x t
  let freesize := if keepThreadStruct ∨ t.addr = x.main then freesizeStack else t.freesize
  ⟨(if freesize = 0 then 0 else freeaddr, freesize), t', keepThreadStruct⟩

def zPthreadDeallocate (x : Exit) (t : Thread) : Option (BitVec 64 × BitVec 64) :=
  if t.addr ≠ x.main then some (t.freeaddr, t.freesize) else none

def rangeOf (r : BitVec 64 × BitVec 64) : Set ℕ := Set.Ico r.1.toNat (r.1.toNat + r.2.toNat)

def givenBack (x : Exit) (e : Ended) : List (BitVec 64 × BitVec 64) :=
  e.range :: if e.kept then (zPthreadDeallocate x e.thread).toList else []

def callerStack (attr : Attr) : Set ℕ :=
  if attr.stackaddr ≠ 0 then
    Set.Ico (attr.stackaddr - attr.stacksize).toNat attr.stackaddr.toNat
  else ∅

/-- The record before the thread ends. `joinable` is what `z_pthread_detach` has left of the
`tl_joinable` that it was made with. -/
def running (a : Allocation) (joinable : Bool) : Thread :=
  { a.thread with tlJoinable := joinable }

/-- They are the mapping, without overlap; what the thread itself gives back is clear of a record
that is kept, and nothing touches the stack of the caller. -/
structure GivenBack (attr : Attr) (a : Allocation) (x : Exit) (e : Ended) : Prop where
  disjoint : (givenBack x e).Pairwise fun r s => Disjoint (rangeOf r) (rangeOf s)
  mapping : ⋃ r ∈ givenBack x e, rangeOf r = a.mapping
  record : e.kept = true → Disjoint (rangeOf e.range) a.thread.record
  spared : ∀ r ∈ givenBack x e, Disjoint (callerStack attr) (rangeOf r)

theorem truncPage_toNat (p : Paging) (x : BitVec 64) :
    (truncPage p x).toNat = x.toNat - x.toNat % 2 ^ p.shift := by
  have hmask : p.zPageSize - 1 = lowMask 64 p.shift := zPageMask_eq p
  rw [truncPage, hmask, toNat_clear p.small.le]

/-- `size` bytes are split off the mapping: nothing, or whole pages in front of the record. -/
structure SplitOff (t : Thread) (size : BitVec 64) : Prop where
  inside : size.toNat ≤ t.freesize.toNat
  below : size = 0 ∨ t.freeaddr.toNat + size.toNat ≤ t.addr.toNat

theorem splitRecord_eq (p : Paging) {x : Exit} {t : Thread} (hmain : t.addr ≠ x.main)
    (hend : t.freeaddr.toNat + t.freesize.toNat < 2 ^ 64) :
    ∃ size, SplitOff t size ∧ splitRecord p x t = (t.freeaddr, size,
      { t with freeaddr := t.freeaddr + size, freesize := t.freesize - size }) := by
  unfold splitRecord
  split
  · next hinside =>
    obtain ⟨hlow, hhigh⟩ := hinside
    refine ⟨_, ⟨?_, ?_⟩, rfl⟩
    · rw [truncPage_toNat]
      bv_omega
    · right
      rw [truncPage_toNat]
      bv_omega
  · have haddr : t.freeaddr + 0 = t.freeaddr := BitVec.add_zero _
    have hsize : t.freesize - 0 = t.freesize := BitVec.sub_zero _
    refine ⟨0, ⟨Nat.zero_le _, .inl rfl⟩, ?_⟩
    rw [haddr, hsize]

theorem rangeOf_nonzero (addr size : BitVec 64) :
    rangeOf (if size = 0 then 0 else addr, size) = rangeOf (addr, size) := by
  split
  · next hzero =>
    rw [hzero]
    simp [rangeOf]
  · rfl

theorem rangeOf_split {addr size total : BitVec 64} (hle : size.toNat ≤ total.toNat)
    (hend : addr.toNat + total.toNat < 2 ^ 64) :
    rangeOf (addr + size, total - size) =
      Set.Ico (addr.toNat + size.toNat) (addr.toNat + total.toNat) := by
  unfold rangeOf
  dsimp only
  congr 1 <;> bv_omega

variable {p : Paging} {mmap : BitVec 64 → BitVec 64} {attr : Attr} {a : Allocation}

theorem terminated_kept {x : Exit} {size : BitVec 64} {t t' : Thread}
    (hsplit : splitRecord p x t = (t.freeaddr, size, t')) (hkeep : keepsStruct x t = true) :
    zPthreadTerminate p x t = ⟨(if size = 0 then 0 else t.freeaddr, size), t', true⟩ := by
  rw [zPthreadTerminate, hsplit]
  simp [hkeep]

theorem terminated_whole {x : Exit} {size : BitVec 64} {t t' : Thread}
    (hsplit : splitRecord p x t = (t.freeaddr, size, t')) (hmain : t.addr ≠ x.main)
    (hkeep : keepsStruct x t = false) :
    zPthreadTerminate p x t =
      ⟨(if t.freesize = 0 then 0 else t.freeaddr, t.freesize), t', false⟩ := by
  rw [zPthreadTerminate, hsplit]
  simp [hkeep, hmain]

theorem givenBack_kept {x : Exit} {r : BitVec 64 × BitVec 64} {t : Thread}
    (hmain : t.addr ≠ x.main) : givenBack x ⟨r, t, true⟩ = [r, (t.freeaddr, t.freesize)] := by
  rw [givenBack, zPthreadDeallocate, if_pos hmain]
  rfl

theorem givenBack_whole (x : Exit) (r : BitVec 64 × BitVec 64) (t : Thread) :
    givenBack x ⟨r, t, false⟩ = [r] := rfl

theorem spared_of_mapping {x : Exit} {e : Ended} {s : Set ℕ}
    (hmapping : ⋃ r ∈ givenBack x e, rangeOf r = a.mapping) (hclear : Disjoint s a.mapping) :
    ∀ r ∈ givenBack x e, Disjoint s (rangeOf r) := by
  intro r hr
  apply hclear.mono_right
  rw [← hmapping]
  exact Set.subset_biUnion_of_mem (u := rangeOf) hr

theorem running_free (halloc : zPthreadAllocate p mmap attr = some a) (joinable : Bool) :
    (running a joinable).freeaddr = a.addr ∧ (running a joinable).freesize = a.size := by
  obtain ⟨allocaddr, rfl, -⟩ := allocated_eq halloc
  exact ⟨rfl, rfl⟩

theorem given_back_whole {x : Exit} (hfresh : Disjoint (callerStack attr) a.mapping)
    (t' : Thread) : GivenBack attr a x ⟨(if a.size = 0 then 0 else a.addr, a.size), t', false⟩ := by
  have hrange := rangeOf_nonzero a.addr a.size
  have hmapping : ⋃ r ∈ givenBack x ⟨(if a.size = 0 then 0 else a.addr, a.size), t', false⟩,
      rangeOf r = a.mapping := by
    rw [givenBack_whole]
    simp only [List.mem_singleton, Set.iUnion_iUnion_eq_left]
    exact hrange
  refine ⟨?_, hmapping, ?_, spared_of_mapping hmapping hfresh⟩
  · rw [givenBack_whole]
    exact List.pairwise_singleton _ _
  · intro hkept
    cases hkept

/-- Two ranges that meet where the mapping was split. -/
theorem given_back_kept {x : Exit} {size : BitVec 64} {t' : Thread} (hmain : t'.addr ≠ x.main)
    (hinside : size.toNat ≤ a.size.toNat)
    (hbelow : size = 0 ∨ a.addr.toNat + size.toNat ≤ a.thread.addr.toNat)
    (haddr : t'.freeaddr = a.addr + size) (hsize : t'.freesize = a.size - size)
    (hend : a.addr.toNat + a.size.toNat < 2 ^ 64)
    (hfresh : Disjoint (callerStack attr) a.mapping) :
    GivenBack attr a x ⟨(if size = 0 then 0 else a.addr, size), t', true⟩ := by
  have hfirst := rangeOf_nonzero a.addr size
  have hrest := rangeOf_split hinside hend
  have hgiven := givenBack_kept (r := (if size = 0 then 0 else a.addr, size)) hmain
  rw [haddr, hsize] at hgiven
  have hmapping : ⋃ r ∈ givenBack x ⟨(if size = 0 then 0 else a.addr, size), t', true⟩,
      rangeOf r = a.mapping := by
    rw [hgiven]
    simp only [List.mem_cons, List.not_mem_nil, or_false, Set.iUnion_iUnion_eq_or_left,
      Set.iUnion_iUnion_eq_left]
    rw [hfirst, hrest]
    apply Set.Ico_union_Ico_eq_Ico
    · exact Nat.le_add_right _ _
    · exact Nat.add_le_add_left hinside _
  refine ⟨?_, hmapping, ?_, spared_of_mapping hmapping hfresh⟩
  · rw [hgiven]
    apply List.pairwise_pair.mpr
    rw [hfirst, hrest]
    exact Set.Ico_disjoint_Ico_same
  · intro _
    dsimp only
    rw [hfirst]
    apply Set.Ico_disjoint_Ico.mpr
    obtain rfl | hle := hbelow
    · simp
    · dsimp only
      omega

/-- Whatever the page, guard and stack sizes, and whether the thread is joined, detached or
neither, the ranges that are given back part the mapping. -/
theorem mapping_given_back (halloc : zPthreadAllocate p mmap attr = some a)
    (hend : a.addr.toNat + a.size.toNat < 2 ^ 64)
    (hfresh : Disjoint (callerStack attr) a.mapping) (x : Exit) (hmain : a.thread.addr ≠ x.main)
    (joinable : Bool) : GivenBack attr a x (zPthreadTerminate p x (running a joinable)) := by
  obtain ⟨haddr, hsize⟩ := running_free halloc joinable
  have hother : (running a joinable).addr ≠ x.main := hmain
  obtain ⟨size, ⟨hinside, hbelow⟩, hsplit⟩ := splitRecord_eq p hother (by rwa [haddr, hsize])
  cases hkeep : keepsStruct x (running a joinable) with
  | false =>
    rw [terminated_whole hsplit hother hkeep, haddr, hsize]
    exact given_back_whole hfresh _
  | true =>
    rw [terminated_kept hsplit hkeep, haddr, hsize]
    rw [haddr] at hbelow
    rw [hsize] at hinside
    exact given_back_kept hmain hinside hbelow rfl rfl hend hfresh

/-- The default attributes on 4 KiB pages, and a thread that nobody has joined yet. -/
def unjoined : Exit := ⟨0x100015000, 0x1000AD000, 0x1000ACF00, 0, false, false⟩

theorem default_mapping_given_back :
    GivenBack zPthreadAttrDefault defaultThread unjoined
      (zPthreadTerminate smallPages unjoined (running defaultThread true)) := by
  have hfresh : Disjoint (callerStack zPthreadAttrDefault) defaultThread.mapping := by
    have hnone : callerStack zPthreadAttrDefault = ∅ := if_neg (not_not_intro rfl)
    rw [hnone]
    exact Set.empty_disjoint _
  have halloc : zPthreadAllocate smallPages (fun _ => 0x10002C000) zPthreadAttrDefault =
      some defaultThread := rfl
  exact mapping_given_back halloc (by decide +kernel) hfresh unjoined (by decide +kernel) true

/-- The record that exit and join share stands for the record of the thread. -/
structure Represents {ι : Type*} (r : ThreadJoin.Record ι) (t : Thread) : Prop where
  freeaddr : r.freeaddr = t.freeaddr.toNat
  freesize : r.freesize = t.freesize.toNat

theorem enterTerminate_represents {ι : Type*} {cfg : ThreadJoin.Config} {x : Exit} {t : Thread}
    {r : ThreadJoin.Record ι} (hpage : cfg.pageSize = 2 ^ p.shift)
    (hself : cfg.self = t.addr.toNat) (hmain : cfg.isMain = false) (hother : t.addr ≠ x.main)
    (hend : t.freeaddr.toNat + t.freesize.toNat < 2 ^ 64) (h : Represents r t) :
    (ThreadJoin.enterTerminate cfg r).1.freeaddr = (splitRecord p x t).1.toNat ∧
      (ThreadJoin.enterTerminate cfg r).1.freesizeStack = (splitRecord p x t).2.1.toNat ∧
      Represents (ThreadJoin.enterTerminate cfg r).2 (splitRecord p x t).2.2 := by
  obtain ⟨haddr, hsize⟩ := h
  have hinside : (t.freeaddr < t.addr ∧ t.addr < t.freeaddr + t.freesize) ↔
      r.freeaddr < cfg.self ∧ cfg.self < r.freeaddr + r.freesize := by
    rw [haddr, hsize, hself]
    bv_omega
  unfold ThreadJoin.enterTerminate splitRecord
  by_cases hin : r.freeaddr < cfg.self ∧ cfg.self < r.freeaddr + r.freesize
  · have hdiff : (t.addr - t.freeaddr).toNat = cfg.self - r.freeaddr := by
      rw [haddr, hself] at hin ⊢
      bv_omega
    have hstack : (truncPage p (t.addr - t.freeaddr)).toNat =
        ThreadJoin.truncPage cfg (cfg.self - r.freeaddr) := by
      rw [truncPage_toNat, hdiff, ThreadJoin.truncPage, hpage]
    rw [if_pos hin, if_pos (hinside.mpr hin)]
    have hle : ThreadJoin.truncPage cfg (cfg.self - r.freeaddr) ≤ cfg.self - r.freeaddr :=
      Nat.sub_le _ _
    refine ⟨haddr, hstack.symm, ?_, ?_⟩
    · dsimp only
      rw [BitVec.toNat_add]
      omega
    · dsimp only
      rw [BitVec.toNat_sub]
      omega
  · rw [if_neg hin, if_neg (mt hinside.mp hin), if_neg hother,
      if_neg (by simp [hmain] : ¬cfg.isMain = true)]
    exact ⟨haddr, rfl, haddr, hsize⟩

end ThreadUnmapping

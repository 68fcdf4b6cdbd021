import LibSystemCall.ByteMemory
import LibSystemCall.GuardedSystem
import LibSystemCall.RegionLedger
import Mathlib.Order.Interval.Set.Disjoint
import Mathlib.Logic.Function.Basic

/-! # z_malloc and z_free

Each block is a mapping of its own. `z_free` unmaps as many bytes as it is told, and the callers
in the library tell it 0, which `munmap` refuses. The kernel maps where nothing is mapped. -/
namespace HeapLedger

open GuardedSystem RegionLedger ByteMemory

def MAP_FAILED : ℕ := 2 ^ 64 - 1

/-- Addresses do not wrap in a mapping. -/
def zMemset (c : UInt8) : Memory → ℕ → ℕ → Memory
  | m, _, 0 => m
  | m, p, n + 1 => zMemset c (Function.update m p c) (p + 1) n

/-- `p` is what `z_mmap` has returned; the null pointer is 0. -/
def zMalloc (p size : ℕ) (m : Memory) : ℕ × Memory :=
  if p = MAP_FAILED ∨ p = 0 then (0, m) else (p, zMemset 0 m p size)

structure Process where
  pageSize : ℕ
  page_pos : 0 < pageSize
  base : Set ℕ

variable (P : Process)

def roundPage (n : ℕ) : ℕ := (n + P.pageSize - 1) / P.pageSize * P.pageSize

/-- What `munmap` takes away from a page on; a length of 0 is an error. -/
def unmapped (addr size : ℕ) : Set ℕ :=
  if size = 0 then ∅ else Set.Ico addr (addr + roundPage P size)

def zFree (addr size : ℕ) : Set ℕ := if addr ≠ 0 then unmapped P addr size else ∅

structure Block where
  addr : ℕ
  size : ℕ

/-- `freed` has what was not unmapped. -/
inductive Slot where
  | unused
  | live (b : Block)
  | freed (rest : Set ℕ)

def pages (b : Block) : Set ℕ := Set.Ico b.addr (b.addr + roundPage P b.size)

def Slot.range : Slot → Set ℕ
  | .unused => ∅
  | .live b => pages P b
  | .freed rest => rest

structure State (ι : Type*) where
  mapped : Set ℕ
  content : Memory
  slot : ι → Slot

inductive Event (ι : Type*) where
  | malloc (i : ι) (size answer : ℕ)
  | write (i : ι) (offset : ℕ) (value : UInt8)
  | free (i : ι) (size : ℕ)

def Event.owner {ι : Type*} : Event ι → ι
  | .malloc i _ _ | .write i _ _ | .free i _ => i

variable {ι : Type*}

/-- `z_mmap` fails, and always for no bytes, or maps whole pages that are not mapped. -/
def Answers (s : State ι) (size answer : ℕ) : Prop :=
  answer = MAP_FAILED ∨ 0 < size ∧ 0 < answer ∧ answer + roundPage P size < 2 ^ 64 ∧
    Disjoint s.mapped (pages P ⟨answer, size⟩)

def Enabled (s : State ι) : Event ι → Prop
  | .malloc i size answer => s.slot i = .unused ∧ Answers P s size answer
  | .write i offset _ => ∃ b, s.slot i = .live b ∧ offset < b.size
  | .free i size => ∃ b, s.slot i = .live b ∧ roundPage P size ≤ roundPage P b.size

variable [DecidableEq ι]

def next (s : State ι) : Event ι → State ι
  | .malloc i size answer =>
    let r := zMalloc answer size s.content
    if r.1 = 0 then { s with content := r.2 }
    else
      { mapped := s.mapped ∪ pages P ⟨r.1, size⟩
        content := r.2
        slot := Function.update s.slot i (.live ⟨r.1, size⟩) }
  | .write i offset value =>
    match s.slot i with
    | .live b => { s with content := Function.update s.content (b.addr + offset) value }
    | _ => s
  | .free i size =>
    match s.slot i with
    | .live b =>
      { s with
        mapped := s.mapped \ zFree P b.addr size
        slot := Function.update s.slot i (.freed (pages P b \ zFree P b.addr size)) }
    | _ => s

def heapSystem : System (State ι) (Event ι) where
  Initial s := s.mapped = P.base ∧ ∀ i, s.slot i = .unused
  Enabled := Enabled P
  next := next P

theorem roundPage_zero : roundPage P 0 = 0 := by
  have hpos := P.page_pos
  rw [roundPage, Nat.div_eq_of_lt (by omega), Nat.zero_mul]

theorem le_roundPage (n : ℕ) : n ≤ roundPage P n := by
  have hpos := P.page_pos
  have hdiv := Nat.div_add_mod (n + P.pageSize - 1) P.pageSize
  have hmod := Nat.mod_lt (n + P.pageSize - 1) hpos
  rw [roundPage, Nat.mul_comm]
  omega

theorem unmapped_eq (addr size : ℕ) :
    unmapped P addr size = Set.Ico addr (addr + roundPage P size) := by
  unfold unmapped
  split
  · next h =>
    rw [h, roundPage_zero, Nat.add_zero, Set.Ico_self]
  · rfl

theorem zMemset_outside (c : UInt8) {n : ℕ} : ∀ {m : Memory} {p a : ℕ},
    a < p ∨ p + n ≤ a → zMemset c m p n a = m a := by
  induction n with
  | zero => intro m p a _; rfl
  | succ n ih =>
    intro m p a h
    rw [zMemset, ih (by omega), Function.update_of_ne (by omega)]

theorem zMemset_inside (c : UInt8) {n : ℕ} : ∀ {m : Memory} {p k : ℕ},
    k < n → zMemset c m p n (p + k) = c := by
  induction n with
  | zero => intro m p k hk; exact absurd hk (Nat.not_lt_zero k)
  | succ n ih =>
    intro m p k hk
    rw [zMemset]
    cases k with
    | zero => rw [zMemset_outside c (.inl (by omega)), Nat.add_zero, Function.update_self]
    | succ k =>
      rw [Nat.add_comm k 1, ← Nat.add_assoc]
      exact ih (Nat.lt_of_succ_lt_succ hk)

variable {P} {s : State ι}

structure Accounted (P : Process) (s : State ι) : Prop where
  parted : Parted P.base s.mapped fun i => (s.slot i).range P
  placed : ∀ i b, s.slot i = .live b → 0 < b.addr

theorem zMalloc_failed (size : ℕ) (m : Memory) : zMalloc MAP_FAILED size m = (0, m) :=
  if_pos (.inl rfl)

theorem zMalloc_mapped {size answer : ℕ} (m : Memory) (hpos : 0 < answer)
    (hend : answer + roundPage P size < 2 ^ 64) (hsize : 0 < size) :
    zMalloc answer size m = (answer, zMemset 0 m answer size) := by
  have hround := le_roundPage P size
  have hfailed : MAP_FAILED = 2 ^ 64 - 1 := rfl
  exact if_neg (by omega)

theorem malloc_cases {i : ι} {size answer : ℕ} (he : Enabled P s (.malloc i size answer)) :
    next P s (.malloc i size answer) = s ∨
      0 < size ∧ 0 < answer ∧ Disjoint s.mapped (pages P ⟨answer, size⟩) ∧
        next P s (.malloc i size answer) =
          { mapped := s.mapped ∪ pages P ⟨answer, size⟩
            content := zMemset 0 s.content answer size
            slot := Function.update s.slot i (.live ⟨answer, size⟩) } := by
  obtain ⟨-, rfl | ⟨hsize, hpos, hend, hfresh⟩⟩ := he
  · simp only [next, zMalloc_failed, if_true]
    exact .inl trivial
  · simp only [next, zMalloc_mapped s.content hpos hend hsize, if_neg (Nat.ne_of_gt hpos)]
    exact .inr ⟨hsize, hpos, hfresh, trivial⟩

theorem free_next {i : ι} {b : Block} (h : Accounted P s) (hb : s.slot i = .live b) (size : ℕ) :
    next P s (.free i size) =
      { s with
        mapped := s.mapped \ Set.Ico b.addr (b.addr + roundPage P size)
        slot := Function.update s.slot i
          (.freed (pages P b \ Set.Ico b.addr (b.addr + roundPage P size))) } := by
  have haddr := Nat.ne_of_gt (h.placed i b hb)
  simp only [next, hb, zFree, if_pos haddr, unmapped_eq]

theorem write_next {i : ι} {b : Block} (hb : s.slot i = .live b) (offset : ℕ) (value : UInt8) :
    next P s (.write i offset value) =
      { s with content := Function.update s.content (b.addr + offset) value } := by
  simp only [next, hb]

theorem ranges_update (i : ι) (slot : Slot) :
    (fun j => (Function.update s.slot i slot j).range P) =
      Function.update (fun j => (s.slot j).range P) i (slot.range P) := by
  funext j
  simp only [Function.update_apply]
  split <;> rfl

theorem accounted_step (h : Accounted P s) (e : Event ι) (he : Enabled P s e) :
    Accounted P (next P s e) := by
  cases e with
  | malloc i size answer =>
    rcases malloc_cases he with hsame | ⟨-, hpos, hfresh, hnext⟩
    · rwa [hsame]
    · rw [hnext]
      refine ⟨?_, fun j b hj => ?_⟩
      · dsimp only
        rw [ranges_update]
        exact h.parted.grant (by rw [he.1, Slot.range]) hfresh
      · simp only [Function.update_apply] at hj
        split at hj
        · obtain rfl := Slot.live.inj hj
          exact hpos
        · exact h.placed j b hj
  | write i offset value =>
    obtain ⟨b, hb, -⟩ := he
    rw [write_next hb]
    exact ⟨h.parted, h.placed⟩
  | free i size =>
    obtain ⟨b, hb, hsize⟩ := he
    rw [free_next h hb]
    refine ⟨?_, fun j c hj => ?_⟩
    · dsimp only
      rw [ranges_update]
      refine h.parted.give ?_ Set.disjoint_sdiff_right
      have hinside : Set.Ico b.addr (b.addr + roundPage P size) ⊆ pages P b :=
        Set.Ico_subset_Ico_right (Nat.add_le_add_left hsize _)
      simp only [hb, Slot.range]
      exact (Set.union_sdiff_cancel hinside).symm
    · simp only [Function.update_apply] at hj
      split at hj
      · cases hj
      · exact h.placed j c hj

theorem accounted_inductive (P : Process) :
    Inductive (heapSystem (ι := ι) P) anyStep (Accounted P) where
  initial s h := by
    obtain ⟨hmapped, hunused⟩ := h
    refine ⟨⟨?_, fun i j _ => ?_, fun i => ?_⟩, fun i b hi => ?_⟩
    · simp [hmapped, hunused, Slot.range]
    · simp [hunused, Slot.range]
    · simp [hunused, Slot.range]
    · rw [hunused i] at hi
      cases hi
  step _ e h he _ := accounted_step h e he

theorem others_kept (h : Accounted P s) (e : Event ι) (he : Enabled P s e) {j : ι} {b : Block}
    (hj : s.slot j = .live b) (hne : j ≠ e.owner) :
    (next P s e).slot j = .live b ∧ pages P b ⊆ (next P s e).mapped ∧
      ∀ a ∈ pages P b, (next P s e).content a = s.content a := by
  have howned : pages P b ⊆ s.mapped := by
    have := h.parted.owned j
    simpa only [hj, Slot.range] using this
  have hapart : ∀ {i c}, s.slot i = .live c → j ≠ i → Disjoint (pages P b) (pages P c) := by
    intro i c hi hji
    have := h.parted.disjoint hji
    simpa only [hj, hi, Slot.range] using this
  cases e with
  | malloc i size answer =>
    rcases malloc_cases he with hsame | ⟨-, -, hfresh, hnext⟩
    · rw [hsame]
      exact ⟨hj, howned, fun _ _ => rfl⟩
    · rw [hnext]
      refine ⟨(Function.update_of_ne hne _ _).trans hj,
        howned.trans Set.subset_union_left, fun a ha => zMemset_outside 0 ?_⟩
      have hround := le_roundPage P size
      have hout : a ∉ pages P ⟨answer, size⟩ := Set.disjoint_left.mp hfresh (howned ha)
      simp only [pages, Set.mem_Ico] at hout
      omega
  | write i offset value =>
    obtain ⟨c, hc, hoffset⟩ := he
    rw [write_next hc]
    refine ⟨hj, howned, fun a ha => Function.update_of_ne ?_ _ _⟩
    rintro rfl
    refine Set.disjoint_left.mp (hapart hc hne) ha ⟨Nat.le_add_right _ _, ?_⟩
    exact Nat.add_lt_add_left (Nat.lt_of_lt_of_le hoffset (le_roundPage P c.size)) _
  | free i size =>
    obtain ⟨c, hc, hsize⟩ := he
    rw [free_next h hc]
    refine ⟨(Function.update_of_ne hne _ _).trans hj, ?_, fun _ _ => rfl⟩
    refine Set.subset_sdiff.mpr ⟨howned, (hapart hc hne).mono_right ?_⟩
    exact Set.Ico_subset_Ico_right (Nat.add_le_add_left hsize _)

/-- The guard of the callers in the library: `z_free(p, 0)`. -/
def libraryFrees (_ : State ι) : Event ι → Prop
  | .free _ size => size = 0
  | _ => True

theorem mapped_grows (h : Accounted P s) (e : Event ι) (he : Enabled P s e)
    (hg : libraryFrees s e) : s.mapped ⊆ (next P s e).mapped := by
  cases e with
  | malloc i size answer =>
    rcases malloc_cases he with hsame | ⟨-, -, -, hnext⟩
    · rw [hsame]
    · rw [hnext]
      exact Set.subset_union_left
  | write i offset value =>
    obtain ⟨b, hb, -⟩ := he
    rw [write_next hb]
  | free i size =>
    obtain ⟨b, hb, -⟩ := he
    obtain rfl : size = 0 := hg
    rw [free_next h hb, roundPage_zero, Nat.add_zero, Set.Ico_self, Set.sdiff_empty]

/-- In every run: what is mapped is what was mapped at the start and, apart from it and from each
other, the pages of the blocks; a new block is all zero; no step touches another block; a block
freed with its size leaves nothing, so when none is left neither is memory. When blocks are freed
as the library frees them, no memory is ever given back. -/
theorem heap_accounted {s : State ι} (h : Reachable (heapSystem P) s) :
    Accounted P s ∧
      (∀ e, Enabled P s e → ∀ j b, s.slot j = .live b → j ≠ e.owner →
        (next P s e).slot j = .live b ∧ pages P b ⊆ (next P s e).mapped ∧
          ∀ a ∈ pages P b, (next P s e).content a = s.content a) ∧
      (∀ i size answer, Enabled P s (.malloc i size answer) → ∀ b,
        (next P s (.malloc i size answer)).slot i = .live b →
          b.size = size ∧ ∀ k < size, (next P s (.malloc i size answer)).content (b.addr + k) = 0) ∧
      (∀ i b, s.slot i = .live b → (next P s (.free i b.size)).slot i = .freed ∅) ∧
      ((∀ i, (s.slot i).range P = ∅) → s.mapped = P.base) ∧
      ∀ t, Execution (heapSystem P) libraryFrees s t → s.mapped ⊆ t.mapped := by
  have hs := (accounted_inductive P).reachable h
  refine ⟨hs, fun e he j b => others_kept hs e he, fun i size answer he b hb => ?_,
    fun i b hb => ?_, hs.parted.returned, fun t ht => ?_⟩
  · rcases malloc_cases he with hsame | ⟨-, -, -, hnext⟩
    · rw [hsame, he.1] at hb
      cases hb
    · rw [hnext] at hb ⊢
      dsimp only at hb
      rw [Function.update_self] at hb
      obtain rfl := Slot.live.inj hb
      exact ⟨rfl, fun k hk => zMemset_inside 0 hk⟩
  · rw [free_next hs hb]
    dsimp only
    rw [Function.update_self, ← pages, Set.sdiff_self]
  · have hrun : Reachable (heapSystem P) t ∧ s.mapped ⊆ t.mapped := by
      induction ht with
      | refl => exact ⟨h, subset_rfl⟩
      | tail hprev he hg ih =>
        obtain ⟨hreach, hle⟩ := ih
        refine ⟨ReachableUnder.step hreach he trivial, hle.trans ?_⟩
        exact mapped_grows ((accounted_inductive P).reachable hreach) _ he hg
    exact hrun.2

/-! A block of ten bytes, on the first page above what is mapped, and another one of twenty. -/

def smallHeap : Process := ⟨4096, by decide, Set.Iio 0x10000⟩

def noBlocks : State ℕ := ⟨Set.Iio 0x10000, fun _ => 7, fun _ => .unused⟩

def mallocTen : Event ℕ := .malloc 0 10 0x10000

def mallocTwenty : Event ℕ := .malloc 1 20 0x20000

def oneBlock : State ℕ := next smallHeap noBlocks mallocTen

theorem mallocTen_enabled : Enabled smallHeap noBlocks mallocTen := by
  refine ⟨rfl, .inr ⟨by decide, by decide, by decide, Set.disjoint_left.mpr fun a hlow hin => ?_⟩⟩
  exact absurd hin.1 (Nat.not_le.mpr hlow)

theorem mallocTwenty_enabled : Enabled smallHeap oneBlock mallocTwenty := by
  refine ⟨rfl, .inr ⟨by decide, by decide, by decide, Set.disjoint_left.mpr fun a hold hin => ?_⟩⟩
  have hpage : roundPage smallHeap 10 = 0x1000 := by decide
  have hmapped : oneBlock.mapped = Set.Iio 0x10000 ∪ pages smallHeap ⟨0x10000, 10⟩ := rfl
  have habove : 0x20000 ≤ a := hin.1
  rw [hmapped] at hold
  rcases hold with hlow | hblock
  · exact absurd (lt_of_lt_of_le hlow (by decide : 0x10000 ≤ 0x20000)) (Nat.not_lt.mpr habove)
  · have hbelow : a < 0x10000 + roundPage smallHeap 10 := hblock.2
    omega

theorem heap_accounted_ten :
    let s := next smallHeap oneBlock mallocTwenty
    Accounted smallHeap oneBlock ∧
      (s.slot 0 = .live ⟨0x10000, 10⟩ ∧ pages smallHeap ⟨0x10000, 10⟩ ⊆ s.mapped ∧
        ∀ a ∈ pages smallHeap ⟨0x10000, 10⟩, s.content a = oneBlock.content a) ∧
      (∀ k < 20, s.content (0x20000 + k) = 0) ∧
      (next smallHeap oneBlock (.free 0 10)).slot 0 = .freed ∅ ∧
      ((∀ i, (oneBlock.slot i).range smallHeap = ∅) → oneBlock.mapped = smallHeap.base) ∧
      ∀ t, Execution (heapSystem smallHeap) libraryFrees oneBlock t →
        oneBlock.mapped ⊆ t.mapped := by
  have hinitial : (heapSystem smallHeap).Initial noBlocks := ⟨rfl, fun _ => rfl⟩
  have hreach : Reachable (heapSystem smallHeap) oneBlock :=
    (ReachableUnder.initial hinitial).step (e := mallocTen) mallocTen_enabled trivial
  obtain ⟨haccounted, hothers, hnew, hfreed, hempty, hgrows⟩ := heap_accounted hreach
  have hlive : oneBlock.slot 0 = .live ⟨0x10000, 10⟩ := rfl
  have hother : (0 : ℕ) ≠ mallocTwenty.owner := by decide
  have hzero := (hnew 1 20 0x20000 mallocTwenty_enabled ⟨0x20000, 20⟩ rfl).2
  exact ⟨haccounted, hothers _ mallocTwenty_enabled 0 _ hlive hother, hzero, hfreed 0 _ hlive,
    hempty, hgrows⟩

end HeapLedger

import LibSystemCall.ElementArray
import LibSystemCall.StringMemmove
import LibSystemCall.StructLayout

/-! # z_mergesort

Pointers are addresses, run ends are stored as 64-bit pointers in the list that is merged
into. Each loop has a bound on its rounds; using it up has no result. Sizes and counts do
not wrap as long as `nmemb * size` stays below `2 ^ 30`. -/
namespace MergeSort

open ByteMemory ElementArray StringMemmove StructLayout

def ISIZE : ℕ := 4
def PSIZE : ℕ := 8

def EINVAL : ℤ := 22

/-- The first aligned address from `p` on. -/
def EVAL (p : ℕ) : ℕ := alignUp PSIZE p

def loadPtr (m : Memory) (p : ℕ) : ℕ := (loadWord 64 m p).toNat

def storePtr (m : Memory) (p v : ℕ) : Memory := storeWord m p (BitVec.ofNat 64 v)

section Setup
variable (cmp : List UInt8 → List UInt8 → ℤ) (size : ℕ)

def cmpAt (m : Memory) (p q : ℕ) : ℤ := cmp (load m p size) (load m q size)

/-- `i` more bytes of the macro `swap`. -/
def swapBytes (m : Memory) (a s : ℕ) : ℕ → Memory
  | 0 => m
  | i + 1 =>
    let tmp := m a
    let m := store m a [m s]
    let m := store m s [tmp]
    swapBytes m (a + 1) (s + 1) i

def swap (m : Memory) (a b : ℕ) : Memory := swapBytes m a b size

/-- The inner loop of `z_insertionsort` from `t = a + k * size` down. -/
def sink (m : Memory) (a : ℕ) : ℕ → Memory
  | 0 => m
  | k + 1 =>
    let t := a + (k + 1) * size
    let u := t - size
    if cmpAt cmp size m u t ≤ 0 then m else sink (swap size m u t) a k

/-- The outer loop, for `ai = a + size` up to `a + j * size`. -/
def insertUpTo (m : Memory) (a : ℕ) : ℕ → Memory
  | 0 => m
  | j + 1 => sink cmp size (insertUpTo m a j) a (j + 1)

def zInsertionsort (m : Memory) (a n : ℕ) : Memory := insertUpTo cmp size m a (n - 1)

/-- The pairwise loop of `z_setup` with `k` pairs to go. -/
def setupPairs (m : Memory) (f1 p2 : ℕ) : ℕ → Memory
  | 0 => m
  | k + 1 =>
    let size2 := size * 2
    let m := storePtr m (EVAL p2) (p2 + size2)
    let m := if cmpAt cmp size m f1 (f1 + size) > 0 then swap size m f1 (f1 + size) else m
    setupPairs m (f1 + size2) (p2 + size2) k

def zSetup (m : Memory) (list1 list2 n : ℕ) : Memory :=
  if n ≤ 5 then
    let m := zInsertionsort cmp size m list1 n
    storePtr m (EVAL list2) (list2 + n * size)
  else
    let i := 4 + n % 2
    let m := zInsertionsort cmp size m (list1 + (n - i) * size) i
    let last := list1 + size * (n - i)
    let m := storePtr m (EVAL (list2 + (last - list1))) (list2 + n * size)
    -- `last` is an even number of elements from `list1`
    setupPairs cmp size m list1 list2 ((n - i) / 2)

end Setup

/-! The search for the end of a stretch: `before p` is `cmp(q, p) > sense`. -/

section Search
variable (size : ℕ) (before : ℕ → Bool)

/-- `while (t > b + size)` -/
def binary : ℕ → ℕ → ℕ → Option ℕ
  | 0, _, _ => none
  | k + 1, b, t =>
    if t > b + size then
      let i := (((t - b) / size) >>> 1) * size
      let p := b + i
      if ¬ before p then binary k b p else binary k p t
    else some t

/-- The loop at FASTCASE. -/
def fastcase : ℕ → ℕ → ℕ → ℕ → Option ℕ
  | 0, _, _, _ => none
  | k + 1, i, b, t =>
    if i > size then
      let i := i >>> 1
      let p := b + i
      if ¬ before p then fastcase k i b p else fastcase k i p t
    else some t

/-- The loop at EXPONENTIAL with what follows it, and `big` afterwards. -/
def exponential : ℕ → ℕ → ℕ → ℕ → Option (ℕ × Bool)
  | 0, _, _, _ => none
  | k + 1, i, b, t =>
    let p := b + i
    if p ≥ t then
      let p := t - size
      if p > b ∧ ¬ before p then (binary size before (t - b + 1) b p).map (·, true)
      else (binary size before (t - b + 1) p t).map (·, true)
    else if ¬ before p then
      let big := if i = size then false else true
      (fastcase size before (i + 1) i b p).map (·, big)
    else exponential k (i <<< 1) p t

/-- Single steps, up to the sixth that goes on. -/
def linear : ℕ → ℕ → ℕ → ℕ → Option (ℕ × Bool)
  | 0, _, _, _ => none
  | k + 1, i, b, t =>
    let b := b + size
    if b < t ∧ before b then
      let i := i + 1
      if i = 6 then exponential size before (t - b + 1) size b t else linear k i b t
    else some (b, false)

/-- The new `b`, and `big`. -/
def search (i : ℕ) (big : Bool) (b t : ℕ) : Option (ℕ × Bool) :=
  if ¬ big then linear size before (t - b + 1) i b t
  else exponential size before (t - b + 1) size b t

end Search

/-! Copying words of `w` bytes: 4 for the ICOPY macros, 1 for the CCOPY macros. -/

def copyWord (w : ℕ) (c : Cursor) : Cursor :=
  ⟨storeWord c.mem c.dst (loadWord (8 * w) c.mem c.src), c.dst + w, c.src + w⟩

/-- `do ... while (src < last)` -/
def copyList (w last : ℕ) : ℕ → Cursor → Option Cursor
  | 0, _ => none
  | k + 1, c =>
    let c := copyWord w c
    if c.src < last then copyList w last k c else some c

/-- `do ... while (i -= w)` -/
def copyElt (w : ℕ) : ℕ → ℕ → Cursor → Option Cursor
  | 0, _, _ => none
  | k + 1, i, c =>
    let c := copyWord w c
    let i := i - w
    if i ≠ 0 then copyElt w k i c else some c

section Merge
variable (cmp : List UInt8 → List UInt8 → ℤ) (size w : ℕ)

structure MergeState where
  mem : Memory
  f1 : ℕ
  f2 : ℕ
  tp2 : ℕ
  i : ℕ
  big : Bool

/-- One round of `while (f1 < l1 && f2 < l2)`. -/
def mergeStep (l1 l2 : ℕ) (s : MergeState) : Option MergeState :=
  let first := decide (cmpAt cmp size s.mem s.f1 s.f2 ≤ 0)
  let q := if first then s.f2 else s.f1
  let b := if first then s.f1 else s.f2
  let t := if first then l1 else l2
  let sense : ℤ := if first then -1 else 0
  let before := fun p => decide (cmpAt cmp size s.mem q p > sense)
  (search size before s.i s.big b t).bind fun found =>
    -- the element copy counts `i` down from `size` to 0
    if q = s.f1 then
      (copyList w found.1 (found.1 - s.f2 + 1) ⟨s.mem, s.tp2, s.f2⟩).bind fun c =>
        (copyElt w (size + 1) size ⟨c.mem, c.dst, s.f1⟩).map fun d =>
          ⟨d.mem, d.src, c.src, d.dst, 0, found.2⟩
    else
      (copyList w found.1 (found.1 - s.f1 + 1) ⟨s.mem, s.tp2, s.f1⟩).bind fun c =>
        (copyElt w (size + 1) size ⟨c.mem, c.dst, s.f2⟩).map fun d =>
          ⟨d.mem, c.src, d.src, d.dst, 0, found.2⟩

def mergeLoop (l1 l2 : ℕ) : ℕ → MergeState → Option MergeState
  | 0, _ => none
  | k + 1, s =>
    if s.f1 < l1 ∧ s.f2 < l2 then (mergeStep cmp size w l1 l2 s).bind (mergeLoop l1 l2 k)
    else some s

/-- The copy of what is left of one of the two runs. -/
def mergeRest (l1 l2 : ℕ) (s : MergeState) : Option MergeState :=
  if s.f2 < l2 then
    (copyList w l2 (l2 - s.f2 + 1) ⟨s.mem, s.tp2, s.f2⟩).map fun c =>
      { s with mem := c.mem, f2 := c.src, tp2 := c.dst }
  else if s.f1 < l1 then
    (copyList w l1 (l1 - s.f1 + 1) ⟨s.mem, s.tp2, s.f1⟩).map fun c =>
      { s with mem := c.mem, f1 := c.src, tp2 := c.dst }
  else some s

structure PassState where
  mem : Memory
  l2 : ℕ
  p1 : ℕ
  p2 : ℕ
  tp2 : ℕ
  i : ℕ
  big : Bool

/-- One round of the `for` loop: the next two runs of `list1` are merged into `list2`. -/
def passStep (list1 list2 last : ℕ) (s : PassState) : Option PassState :=
  let p2 := loadPtr s.mem (EVAL s.p2)
  let f1 := s.l2
  let l1 := list1 + (p2 - list2)
  let f2 := l1
  let p2 := if p2 ≠ last then loadPtr s.mem (EVAL p2) else p2
  let l2 := list1 + (p2 - list2)
  (mergeLoop cmp size w l1 l2 (l1 - f1 + (l2 - f2) + 1) ⟨s.mem, f1, f2, s.tp2, s.i, s.big⟩).bind
    fun r => (mergeRest w l1 l2 r).map fun r =>
      ⟨storePtr r.mem s.p1 l2, l2, EVAL l2, p2, r.tp2, r.i, r.big⟩

def passLoop (list1 list2 last : ℕ) : ℕ → PassState → Option PassState
  | 0, _ => none
  | k + 1, s =>
    if s.p2 ≠ last then (passStep cmp size w list1 list2 last s).bind (passLoop list1 list2 last k)
    else some s

structure SortState where
  mem : Memory
  list1 : ℕ
  list2 : ℕ
  i : ℕ
  big : Bool

/-- `while (*EVAL(list2) != last)`; the lists change places after every pass. -/
def sortLoop (n : ℕ) : ℕ → SortState → Option SortState
  | 0, _ => none
  | k + 1, s =>
    let last := s.list2 + n * size
    if loadPtr s.mem (EVAL s.list2) ≠ last then
      (passLoop cmp size w s.list1 s.list2 last (n * size + 1)
        ⟨s.mem, s.list1, EVAL s.list1, s.list2, s.list2, s.i, s.big⟩).bind fun r =>
          sortLoop n k ⟨r.mem, s.list2, s.list1, r.i, r.big⟩
    else some s

end Merge

/-- The memory, the return value and what `z_mergesort` itself assigns to `z_errno`, if
anything. -/
structure SortResult where
  mem : Memory
  ret : ℤ
  errno : Option ℤ

/-- `alloc` is the result of `z_malloc(nmemb * size + PSIZE)`, which has left the memory `m`. -/
def zMergesort (cmp : List UInt8 → List UInt8 → ℤ) (m : Memory) (base nmemb size : ℕ)
    (alloc : Option ℕ) : Option SortResult :=
  if size < PSIZE / 2 then some ⟨m, -1, some EINVAL⟩
  else if nmemb = 0 then some ⟨m, 0, none⟩
  else
    let iflag := size % ISIZE = 0 ∧ base % ISIZE = 0
    match alloc with
    | none => some ⟨m, -1, none⟩
    | some list2 =>
      let m := zSetup cmp size m base list2 nmemb
      let w := if iflag then ISIZE else 1
      (sortLoop cmp size w nmemb (nmemb * size + 1) ⟨m, base, list2, 0, false⟩).map fun s =>
        if base = s.list2 then ⟨(zMemmove s.mem s.list2 s.list1 (nmemb * size)).1, 0, none⟩
        else ⟨s.mem, 0, none⟩

end MergeSort

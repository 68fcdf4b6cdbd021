import LibSystemCall.GuardedSystem
import Mathlib.Algebra.GroupWithZero.Nat
import Mathlib.Data.List.Forall2

/-! # The table of exit handlers

Blocks of 32 handlers in a list, the newest block first. What a handler does is the
environment's: an event is a registration, a call of `z_cxa_finalize_ranges`, or the return
of the handler that runs. Handlers are numbered in the order of their registration. -/
namespace AtexitTable

open GuardedSystem

inductive FnType where
  | empty
  | std
  | cxa
  deriving DecidableEq

structure AtexitFn where
  fnType : FnType
  fnPtr : BitVec 64
  fnArg : BitVec 64
  fnDso : BitVec 64

structure Range where
  addr : BitVec 64
  length : BitVec 64

def ATEXIT_SIZE : ℕ := 32

/-- `struct z_atexit`: `ind` is the length of `fns`. -/
structure Block where
  fns : List AtexitFn
  fits : fns.length ≤ ATEXIT_SIZE

/-- The list that `_z_atexit` heads; `z_atexit_init` has made its first block. -/
structure Table where
  blocks : List Block
  nonempty : blocks ≠ []

def AtexitFn.clear (fn : AtexitFn) : AtexitFn := { fn with fnType := .empty }

def Block.clear (b : Block) (n : ℕ) : Block :=
  ⟨b.fns.modify n AtexitFn.clear, by simpa using b.fits⟩

def emptyBlock : Block := ⟨[], Nat.zero_le _⟩

def zCxaInRange : List Range → BitVec 64 → Bool
  | [], _ => false
  | r :: rs, fn =>
    if fn < r.addr then zCxaInRange rs fn
    else if fn < r.addr + r.length then true
    else zCxaInRange rs fn

/-- The loop of `z_cxa_finalize_ranges` does not pass the entry over. -/
def due (ranges : List Range) (fn : AtexitFn) : Bool :=
  match fn.fnType with
  | .empty => false
  | .cxa => ranges.isEmpty || zCxaInRange ranges fn.fnDso
  | .std => ranges.isEmpty || zCxaInRange ranges fn.fnPtr

/-- `for (n = p->ind; --n >= 0;)` from `n` on, up to the next entry that is due. -/
def scanFns (ranges : List Range) (fns : List AtexitFn) : ℕ → Option ℕ
  | 0 => none
  | n + 1 => if fns[n]?.any (due ranges) then some n else scanFns ranges fns n

/-- `for (p = _z_atexit; p; p = p->next)`; `p` is given by the number of blocks from it on. -/
def scanBlocks (ranges : List Range) : List Block → Option (ℕ × ℕ)
  | [] => none
  | b :: bs =>
    match scanFns ranges b.fns b.fns.length with
    | some n => some (bs.length + 1, n)
    | none => scanBlocks ranges bs

/-- Both loops from the entry `n` of `p` on. -/
def scanFrom (ranges : List Range) (t : Table) (p n : ℕ) : Option (ℕ × ℕ) :=
  match t.blocks.drop (t.blocks.length - p) with
  | [] => none
  | b :: bs =>
    match scanFns ranges b.fns n with
    | some n => some (p, n)
    | none => scanBlocks ranges bs

def Table.clear (t : Table) (p n : ℕ) : Table where
  blocks := t.blocks.modify (t.blocks.length - p) fun b => b.clear n
  nonempty := by simpa [← List.length_eq_zero_iff] using t.nonempty

/-- `malloced` is the success of `z_malloc`, if a block is needed; no result stands for -1. -/
def zAtexitRegister (malloced : Bool) (t : Table) (fn : AtexitFn) : Option Table :=
  match t.blocks with
  | [] => none
  | b :: bs =>
    if h : b.fns.length < ATEXIT_SIZE then
      some ⟨⟨b.fns ++ [fn], List.length_append ▸ h⟩ :: bs, List.cons_ne_nil _ _⟩
    else if malloced then some ⟨⟨[fn], by simp [ATEXIT_SIZE]⟩ :: b :: bs, List.cons_ne_nil _ _⟩
    else none

/-- The handlers in the order of their registration. -/
def flat : List Block → List AtexitFn
  | [] => []
  | b :: bs => flat bs ++ b.fns

def Table.number (t : Table) (p n : ℕ) : ℕ :=
  (flat (t.blocks.drop (t.blocks.length + 1 - p))).length + n

/-- A running `z_cxa_finalize_ranges`, at the entry whose handler it has called. -/
structure Loop where
  ranges : List Range
  p : ℕ
  n : ℕ

/-- The innermost loop comes first, and the handler that it has called is running. `called`
lists the numbers of the handlers called so far. -/
structure State where
  table : Table
  newRegistration : Bool
  loops : List Loop
  called : List ℕ

inductive Event where
  | register (fn : AtexitFn)
  | finalizeRanges (ranges : List Range)
  | handlerReturns

def zCxaFinalize (dso : BitVec 64) : Event :=
  if dso ≠ 0 then .finalizeRanges [⟨dso, 1⟩] else .finalizeRanges []

/-- The loop calls the handler it has found, or returns to what called it. -/
def State.proceed (s : State) (ranges : List Range) (rest : List Loop) :
    Option (ℕ × ℕ) → State
  | some (p, n) =>
    { table := s.table.clear p n
      newRegistration := false
      loops := ⟨ranges, p, n⟩ :: rest
      called := s.called ++ [s.table.number p n] }
  | none => { s with loops := rest }

def Enabled (s : State) : Event → Prop
  | .register fn => fn.fnType ≠ .empty
  | .finalizeRanges _ => True
  | .handlerReturns => s.loops ≠ []

def next (s : State) : Event → State
  | .register fn =>
    match zAtexitRegister true s.table fn with
    | some t => { s with table := t, newRegistration := true }
    | none => s
  | .finalizeRanges ranges => s.proceed ranges s.loops (scanBlocks ranges s.table.blocks)
  | .handlerReturns =>
    match s.loops with
    | [] => s
    | l :: rest =>
      s.proceed l.ranges rest
        (if s.newRegistration then scanBlocks l.ranges s.table.blocks
        else scanFrom l.ranges s.table l.p l.n)

/-- After `z_atexit_init`. -/
def initial : State := ⟨⟨[emptyBlock], by simp⟩, false, [], []⟩

def atexitSystem : System State Event := ⟨(· = initial), Enabled, next⟩

/-! The two loops scan the handlers downwards in the order of their registration. -/

theorem scanFns_append_left {ranges : List Range} {xs ys : List AtexitFn} {n : ℕ}
    (h : n ≤ xs.length) : scanFns ranges (xs ++ ys) n = scanFns ranges xs n := by
  induction n with
  | zero => rfl
  | succ n ih => rw [scanFns, scanFns, ih (by omega), List.getElem?_append_left h]

theorem scanFns_append_right {ranges : List Range} {xs ys : List AtexitFn} {n : ℕ} :
    scanFns ranges (xs ++ ys) (xs.length + n) =
      match scanFns ranges ys n with
      | some k => some (xs.length + k)
      | none => scanFns ranges xs xs.length := by
  induction n with
  | zero => exact scanFns_append_left (Nat.le_refl _)
  | succ n ih =>
    have hget : (xs ++ ys)[xs.length + n]? = ys[n]? := by
      rw [List.getElem?_append_right (Nat.le_add_right _ _), Nat.add_sub_cancel_left]
    rw [← Nat.add_assoc, scanFns, scanFns, hget, ih]
    split <;> rfl

theorem scanFns_some {ranges : List Range} {fns : List AtexitFn} {n k : ℕ}
    (h : scanFns ranges fns n = some k) :
    k < n ∧ fns[k]?.any (due ranges) = true ∧
      ∀ j, k < j → j < n → fns[j]?.any (due ranges) = false := by
  induction n with
  | zero => cases h
  | succ n ih =>
    rw [scanFns] at h
    split at h
    case isTrue hn =>
      obtain rfl := Option.some.inj h
      exact ⟨Nat.lt_succ_self _, hn, fun j hj hj' => by omega⟩
    case isFalse hn =>
      obtain ⟨hk, hdue, hbetween⟩ := ih h
      refine ⟨Nat.lt_succ_of_lt hk, hdue, fun j hj hj' => ?_⟩
      rcases Nat.lt_succ_iff_lt_or_eq.mp hj' with hj' | rfl
      · exact hbetween j hj hj'
      · simpa using hn

theorem scanFns_none {ranges : List Range} {fns : List AtexitFn} {n : ℕ}
    (h : scanFns ranges fns n = none) : ∀ j < n, fns[j]?.any (due ranges) = false := by
  induction n with
  | zero => exact fun j hj => absurd hj (Nat.not_lt_zero j)
  | succ n ih =>
    rw [scanFns] at h
    split at h
    case isTrue => cases h
    case isFalse hn =>
      intro j hj
      rcases Nat.lt_succ_iff_lt_or_eq.mp hj with hj | rfl
      · exact ih h j hj
      · simpa using hn

theorem flat_append (xs ys : List Block) : flat (xs ++ ys) = flat ys ++ flat xs := by
  induction xs with
  | nil => simp [flat]
  | cons b bs ih => rw [List.cons_append, flat, flat, ih, List.append_assoc]

/-- The pointer `p` leads to `b`, and `older` are the blocks behind it. -/
structure Points (bs : List Block) (p : ℕ) (b : Block) (older : List Block) : Prop where
  suffix : b :: older <:+ bs
  place : p = older.length + 1

theorem Points.drop {bs : List Block} {p : ℕ} {b : Block} {older : List Block}
    (h : Points bs p b older) : bs.drop (bs.length - p) = b :: older := by
  obtain ⟨newer, rfl⟩ := h.suffix
  rw [h.place, List.length_append, List.length_cons, Nat.add_sub_cancel, List.drop_left]

/-- Entry `n` of `p` is the handler of number `k`. -/
structure Marks (t : Table) (p n k : ℕ) (b : Block) (older : List Block) : Prop where
  points : Points t.blocks p b older
  inside : n < b.fns.length
  number : k = (flat older).length + n

theorem Marks.number_eq {t : Table} {p n k : ℕ} {b : Block} {older : List Block}
    (h : Marks t p n k b older) : t.number p n = k := by
  obtain ⟨newer, hbs⟩ := h.points.suffix
  have hdrop : t.blocks.drop (t.blocks.length + 1 - p) = older := by
    rw [← hbs, h.points.place, List.length_append, List.length_cons,
      show newer.length + (older.length + 1) + 1 - (older.length + 1) = newer.length + 1 by omega,
      List.drop_append, List.drop_of_length_le (by omega), Nat.add_sub_cancel_left]
    rfl
  rw [Table.number, hdrop, h.number]

/-- What a scan of the blocks has found, against a scan of the handlers by number. -/
inductive Found (t : Table) : Option (ℕ × ℕ) → Option ℕ → Prop where
  | none : Found t none none
  | some {p n k b older} (h : Marks t p n k b older) : Found t (some (p, n)) (some k)

theorem scanBlocks_found (ranges : List Range) {t : Table} {bs : List Block}
    (h : bs <:+ t.blocks) :
    Found t (scanBlocks ranges bs) (scanFns ranges (flat bs) (flat bs).length) := by
  induction bs with
  | nil => exact .none
  | cons b bs ih =>
    rw [scanBlocks, flat, List.length_append, scanFns_append_right]
    cases hscan : scanFns ranges b.fns b.fns.length with
    | some n => exact .some ⟨⟨h, rfl⟩, (scanFns_some hscan).1, rfl⟩
    | none => exact ih ((List.suffix_cons b bs).trans h)

theorem scanFrom_found (ranges : List Range) {t : Table} {p n k : ℕ} {b : Block}
    {older : List Block} (h : Marks t p n k b older) :
    Found t (scanFrom ranges t p n) (scanFns ranges (flat t.blocks) k) := by
  obtain ⟨newer, hbs⟩ := h.points.suffix
  have hflat : scanFns ranges (flat t.blocks) k =
      scanFns ranges (flat older ++ b.fns) ((flat older).length + n) := by
    rw [← hbs, flat_append, flat, h.number]
    apply scanFns_append_left
    rw [List.length_append]
    exact Nat.add_le_add_left (Nat.le_of_lt h.inside) _
  rw [scanFrom, h.points.drop, hflat, scanFns_append_right]
  cases hscan : scanFns ranges b.fns n with
  | some m =>
    simp only [hscan]
    exact .some ⟨h.points, Nat.lt_trans (scanFns_some hscan).1 h.inside, rfl⟩
  | none =>
    simp only [hscan]
    exact scanBlocks_found ranges ((List.suffix_cons b older).trans h.points.suffix)

/-- The handlers in the order of their registration, and where each running loop stands. -/
structure Registry where
  handlers : List AtexitFn
  newRegistration : Bool
  loops : List (List Range × ℕ)
  called : List ℕ

def Registry.proceed (r : Registry) (ranges : List Range) (rest : List (List Range × ℕ)) :
    Option ℕ → Registry
  | some k =>
    { handlers := r.handlers.modify k AtexitFn.clear
      newRegistration := false
      loops := (ranges, k) :: rest
      called := r.called ++ [k] }
  | none => { r with loops := rest }

def Registry.nextDue (r : Registry) (ranges : List Range) (k : ℕ) : Option ℕ :=
  scanFns ranges r.handlers (if r.newRegistration then r.handlers.length else k)

def Registry.next (r : Registry) : Event → Registry
  | .register fn => { r with handlers := r.handlers ++ [fn], newRegistration := true }
  | .finalizeRanges ranges =>
    r.proceed ranges r.loops (scanFns ranges r.handlers r.handlers.length)
  | .handlerReturns =>
    match r.loops with
    | [] => r
    | (ranges, k) :: rest => r.proceed ranges rest (r.nextDue ranges k)

def SameLoop (t : Table) (l : Loop) (r : List Range × ℕ) : Prop :=
  l.ranges = r.1 ∧ ∃ b older, Marks t l.p l.n r.2 b older

structure Abstracts (s : State) (r : Registry) : Prop where
  handlers : r.handlers = flat s.table.blocks
  newRegistration : r.newRegistration = s.newRegistration
  loops : List.Forall₂ (SameLoop s.table) s.loops r.loops
  called : r.called = s.called

theorem modify_append_left {α : Type*} {f : α → α} {xs ys : List α} {n : ℕ}
    (h : n < xs.length) : (xs ++ ys).modify n f = xs.modify n f ++ ys := by
  induction xs generalizing n with
  | nil => simp at h
  | cons x xs ih =>
    cases n with
    | zero => rfl
    | succ n =>
      rw [List.cons_append, List.modify_succ_cons, List.modify_succ_cons, List.cons_append,
        ih (Nat.lt_of_succ_lt_succ h)]

theorem modify_append_right {α : Type*} {f : α → α} (xs ys : List α) (n : ℕ) :
    (xs ++ ys).modify (xs.length + n) f = xs ++ ys.modify n f :=
  List.modifyTailIdx_add (List.modifyHead f) n xs ys

theorem length_flat (bs : List Block) :
    (flat bs).length = (bs.map fun b => b.fns.length).sum := by
  induction bs with
  | nil => rfl
  | cons b bs ih => rw [flat, List.length_append, ih, List.map_cons, List.sum_cons, Nat.add_comm]

theorem Marks.reshape {t t' : Table} {p n k : ℕ} {b : Block} {older : List Block}
    (h : Marks t p n k b older)
    (hshape : t'.blocks.map (fun b => b.fns.length) = t.blocks.map fun b => b.fns.length) :
    ∃ b' older', Marks t' p n k b' older' := by
  obtain ⟨newer, hbs⟩ := h.points.suffix
  rw [← hbs, List.map_append, List.map_cons] at hshape
  obtain ⟨newer', rest, hbs', -, hrest⟩ := List.map_eq_append_iff.mp hshape
  obtain ⟨b', older', rfl, hb, holder⟩ := List.map_eq_cons_iff.mp hrest
  have hlen := congrArg List.length holder
  rw [List.length_map, List.length_map] at hlen
  refine ⟨b', older', ⟨⟨newer', hbs'.symm⟩, by rw [h.points.place, hlen]⟩, ?_, ?_⟩
  · rw [hb]
    exact h.inside
  · rw [h.number, length_flat, length_flat, holder]

theorem Marks.clear {t : Table} {p n k : ℕ} {b : Block} {older : List Block}
    (h : Marks t p n k b older) :
    flat (t.clear p n).blocks = (flat t.blocks).modify k AtexitFn.clear := by
  obtain ⟨newer, hbs⟩ := h.points.suffix
  have hplace : t.blocks.length - p = newer.length + 0 := by
    rw [← hbs, h.points.place, List.length_append, List.length_cons]
    omega
  rw [Table.clear]
  simp only [hplace]
  rw [← hbs, modify_append_right, List.modify_zero_cons, flat_append, flat_append, flat, flat,
    Block.clear, h.number]
  rw [modify_append_left (by rw [List.length_append]; exact Nat.add_lt_add_left h.inside _),
    modify_append_right]

theorem clear_shape (t : Table) (p n : ℕ) :
    (t.clear p n).blocks.map (fun b => b.fns.length) = t.blocks.map fun b => b.fns.length := by
  apply List.ext_getElem
  · simp [Table.clear]
  · intro i hi hi'
    simp only [Table.clear, List.getElem_map, List.getElem_modify]
    split
    · simp [Block.clear]
    · rfl

structure Registered (t : Table) (fn : AtexitFn) (t' : Table) : Prop where
  flat : flat t'.blocks = flat t.blocks ++ [fn]
  marks : ∀ {p n k b older}, Marks t p n k b older → ∃ b' older', Marks t' p n k b' older'

theorem register_registered (t : Table) (fn : AtexitFn) :
    ∃ t', zAtexitRegister true t fn = some t' ∧ Registered t fn t' := by
  obtain ⟨blocks, hne⟩ := t
  match blocks, hne with
  | b :: bs, hne =>
    by_cases hroom : b.fns.length < ATEXIT_SIZE
    · refine ⟨_, dif_pos hroom, ?_, ?_⟩
      · simp only [AtexitTable.flat, List.append_assoc]
      · intro p n k c older hm
        rcases List.suffix_cons_iff.mp hm.points.suffix with hhead | htail
        · obtain ⟨rfl, rfl⟩ := List.cons.inj hhead
          refine ⟨_, older, ⟨List.suffix_rfl, hm.points.place⟩, ?_, hm.number⟩
          rw [List.length_append]
          exact Nat.lt_add_right _ hm.inside
        · exact ⟨c, older, ⟨htail.trans (List.suffix_cons _ _), hm.points.place⟩, hm.inside,
            hm.number⟩
    · refine ⟨_, (dif_neg hroom).trans (if_pos rfl), ?_, ?_⟩
      · simp only [AtexitTable.flat]
      · intro p n k c older hm
        exact ⟨c, older, ⟨hm.points.suffix.trans (List.suffix_cons _ _), hm.points.place⟩,
          hm.inside, hm.number⟩

theorem sameLoops {t t' : Table} {loops : List Loop} {loops' : List (List Range × ℕ)}
    (h : List.Forall₂ (SameLoop t) loops loops')
    (hmarks : ∀ {p n k b older}, Marks t p n k b older → ∃ b' older', Marks t' p n k b' older') :
    List.Forall₂ (SameLoop t') loops loops' := by
  apply h.imp
  rintro l r ⟨hranges, b, older, hm⟩
  exact ⟨hranges, hmarks hm⟩

theorem Abstracts.proceed {s : State} {r : Registry} (h : Abstracts s r) {ranges : List Range}
    {rest : List Loop} {rest' : List (List Range × ℕ)} {o : Option (ℕ × ℕ)} {o' : Option ℕ}
    (hrest : List.Forall₂ (SameLoop s.table) rest rest') (ho : Found s.table o o') :
    Abstracts (s.proceed ranges rest o) (r.proceed ranges rest' o') := by
  cases ho with
  | none => exact ⟨h.handlers, h.newRegistration, hrest, h.called⟩
  | @some p n k b older hm =>
    have hclear : ∀ {p' n' k' b older}, Marks s.table p' n' k' b older →
        ∃ b' older', Marks (s.table.clear p n) p' n' k' b' older' :=
      fun hm' => hm'.reshape (clear_shape s.table p n)
    refine ⟨?_, rfl, .cons ⟨rfl, hclear hm⟩ (sameLoops hrest hclear), ?_⟩
    · exact (congrArg (fun hs => hs.modify k AtexitFn.clear) h.handlers).trans hm.clear.symm
    · show r.called ++ [k] = s.called ++ [s.table.number p n]
      rw [h.called, hm.number_eq]

/-- The code does with blocks and pointers what the registry does with numbers. -/
theorem Abstracts.next {s : State} {r : Registry} (h : Abstracts s r) (e : Event) :
    Abstracts (next s e) (r.next e) := by
  cases e with
  | register fn =>
    obtain ⟨t, ht, hr⟩ := register_registered s.table fn
    simp only [AtexitTable.next, ht]
    exact ⟨by rw [hr.flat, ← h.handlers]; rfl, rfl, sameLoops h.loops hr.marks, h.called⟩
  | finalizeRanges ranges =>
    refine h.proceed h.loops ?_
    rw [h.handlers]
    exact scanBlocks_found ranges List.suffix_rfl
  | handlerReturns =>
    obtain ⟨table, flag, loops, called⟩ := s
    obtain ⟨handlers, flag', loops', called'⟩ := r
    obtain ⟨hhandlers, hflag, hloops, hcalled⟩ := h
    simp only at hhandlers hflag hloops hcalled
    subst hhandlers hflag hcalled
    cases hloops with
    | nil => exact ⟨rfl, rfl, .nil, rfl⟩
    | @cons l r rest rest' hl hrest =>
      obtain ⟨ranges, k⟩ := r
      obtain ⟨hranges, b, older, hm⟩ := hl
      simp only at hranges hm
      subst hranges
      have hs : Abstracts ⟨table, flag', l :: rest, called'⟩
          ⟨flat table.blocks, flag', (l.ranges, k) :: rest', called'⟩ :=
        ⟨rfl, rfl, .cons ⟨rfl, b, older, hm⟩ hrest, rfl⟩
      refine hs.proceed hrest ?_
      cases flag' with
      | true => exact scanBlocks_found l.ranges List.suffix_rfl
      | false => exact scanFrom_found l.ranges hm

theorem abstracts_initial : Abstracts initial ⟨[], false, [], []⟩ := ⟨rfl, rfl, .nil, rfl⟩

end AtexitTable

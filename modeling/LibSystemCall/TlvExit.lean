import LibSystemCall.TlvTerminators
import Mathlib.Algebra.Order.Ring.Nat
import Mathlib.Data.List.Nodup
import Mathlib.Data.List.Perm.Subperm

/-! # Terminators run by z_pthread_tlv_exit

The terminator list of one thread with the size of its block. Between two steps of
`z_pthread_tlv_finalize_list` user code may register terminators or call `z_pthread_tlv_exit`. -/
namespace TlvExit

open GuardedSystem TsdKeys
open TlvTerminators (CodeAddresses tlvFinalize finalize_kept)

/-- `number` is the place in the order of registration; the code does not keep it. -/
structure Entry where
  number : ℕ
  termFunc : BitVec 64
  objAddr : BitVec 64
  deriving DecidableEq

/-- `useCount` is the length of the entries; the block has room for `allocCount`. -/
structure TerminatorList where
  allocCount : ℕ
  entries : List Entry
  nonempty : entries ≠ []
  fits : entries.length ≤ allocCount

/-- None stands for a write past the block, here and below. -/
def TerminatorList.append (list : TerminatorList) (entry : Entry) : Option TerminatorList :=
  if h : list.entries.length < list.allocCount then
    some ⟨list.allocCount, list.entries ++ [entry], by simp, List.length_append ▸ h⟩
  else none

def TerminatorList.resize (list : TerminatorList) : Option TerminatorList :=
  let newAllocCount := list.allocCount * 2 % 2 ^ 32
  if h : list.entries.length ≤ newAllocCount then
    some ⟨newAllocCount, list.entries, list.nonempty, h⟩
  else none

structure Tlv where
  tsd : TsdKeys.State Unit TerminatorList
  terminatorsKey : ℕ

def Tlv.slot (t : Tlv) : Option TerminatorList := zPthreadGetspecific t.tsd () t.terminatorsKey

def Tlv.setspecific (t : Tlv) (value : Option TerminatorList) : Tlv :=
  { t with tsd := (zPthreadSetspecific t.tsd () t.terminatorsKey value).1 }

def Tlv.writeList (t : Tlv) (list : TerminatorList) : Tlv :=
  let self := t.tsd.thread ()
  { t with
    tsd := t.tsd.setThread ()
      { self with tsd := Function.update self.tsd t.terminatorsKey (some list) } }

/-- `malloced` is the success of `z_malloc`, if it is called; the code does not look. -/
def zPthreadTlvAtexit (malloced : Bool) (t : Tlv) (entry : Entry) : Option Tlv :=
  match t.slot with
  | none =>
    if malloced then
      some (t.setspecific (some ⟨1, [entry], List.cons_ne_nil _ _, Nat.le_refl 1⟩))
    else none
  | some list =>
    if list.entries.length = list.allocCount then
      if malloced then
        list.resize.bind fun newlist =>
          (newlist.append entry).map (t.setspecific (some newlist)).writeList
      else none
    else (list.append entry).map t.writeList

/-- The part for the terminators. -/
def zPthreadTlvInitializer [CodeAddresses] (tsd : TsdKeys.State Unit TerminatorList) : Tlv :=
  match zPthreadKeyCreate tsd tlvFinalize with
  | (tsd, _, key) => ⟨tsd, key.getD 0⟩

/-- A call of `z_pthread_tlv_finalize_list`, with the entries from `i - 1` down. -/
structure Frame where
  left : List Entry
  fromExit : Bool

/-- The innermost call comes first; `busy` while user code runs. -/
structure State where
  tlv : Tlv
  frames : List Frame
  busy : Bool
  registered : List Entry
  called : List Entry
  faulted : Bool

inductive Event where
  | register (func objAddr : BitVec 64) (malloced : Bool)
  | exit
  | ret
  | tick

/-- User code registers, calls `z_pthread_tlv_exit` or, as a terminator, returns. -/
def Enabled (s : State) (e : Event) : Prop :=
  s.faulted = false ∧
    match e with
    | .register _ _ _ => s.busy = true
    | .exit => s.busy = true
    | .ret => s.busy = true ∧ s.frames ≠ []
    | .tick => s.busy = false

def zPthreadTlvFinalizeList (s : State) (list : TerminatorList) (fromExit : Bool) : State :=
  { s with frames := ⟨list.entries.reverse, fromExit⟩ :: s.frames, busy := false }

def zPthreadTlvExit (s : State) : State :=
  match s.tlv.slot with
  | none => s
  | some list => zPthreadTlvFinalizeList { s with tlv := s.tlv.setspecific none } list true

/-- After an entry: a list begun in the meantime is finalized at once. -/
def finalizeNew (s : State) : State :=
  match s.tlv.slot with
  | none => { s with busy := false }
  | some newlist => zPthreadTlvFinalizeList { s with tlv := s.tlv.setspecific none } newlist false

def loopStep (s : State) : List Frame → State
  | [] => s
  | ⟨[], fromExit⟩ :: rest => { s with frames := rest, busy := fromExit }
  | ⟨entry :: left, fromExit⟩ :: rest =>
    let s := { s with frames := ⟨left, fromExit⟩ :: rest }
    if entry.termFunc ≠ 0 then { s with busy := true, called := s.called ++ [entry] }
    else finalizeNew s

def next (s : State) : Event → State
  | .register func objAddr malloced =>
    let entry : Entry := ⟨s.registered.length, func, objAddr⟩
    match zPthreadTlvAtexit malloced s.tlv entry with
    | none => { s with faulted := true }
    | some tlv => { s with tlv := tlv, registered := s.registered ++ [entry] }
  | .exit => zPthreadTlvExit s
  | .ret => finalizeNew s
  | .tick => loopStep s s.frames

def start [CodeAddresses] (tsd : TsdKeys.State Unit TerminatorList) : State :=
  ⟨zPthreadTlvInitializer tsd, [], true, [], [], false⟩

def Initial [CodeAddresses] (s : State) : Prop := ∃ tsd, TsdKeys.Initial tsd ∧ s = start tsd

def exitSystem [CodeAddresses] : System State Event := ⟨Initial, Enabled, next⟩

structure MostRecent (s : State) (entry : Entry) : Prop where
  registered : entry ∈ s.registered
  notNull : entry.termFunc ≠ 0
  uncalled : entry ∉ s.called
  last : ∀ x ∈ s.registered, x.termFunc ≠ 0 → x ∉ s.called → x.number ≤ entry.number

def AllCalled (s : State) : Prop := s.called.Perm (s.registered.filter (·.termFunc ≠ 0))

def Returns (s : State) (e : Event) : Prop :=
  (next s e).frames = [] ∧
    match e with
    | .tick => True
    | .exit => s.frames = []
    | _ => False

/-- The list holds fewer than 2^31 terminators, and a block asked for is there. -/
def RoomLeft (t : Tlv) (malloced : Bool) : Prop :=
  match t.slot with
  | none => malloced = true
  | some list => list.entries.length < 2 ^ 31 ∧
      (list.entries.length = list.allocCount → malloced = true)

def roomLeft (s : State) : Event → Prop
  | .register _ _ malloced => RoomLeft s.tlv malloced
  | _ => True

/-! The order of registration as a stack: what waits is registered, newest first. -/

structure Ledger (registered waiting called : List Entry) : Prop where
  numbers : ∀ (i : ℕ) (x : Entry), registered[i]? = some x → x.number = i
  sorted : waiting.Pairwise fun x y : Entry => y.number < x.number
  waiting_registered : ∀ x ∈ waiting, x ∈ registered
  called_iff : ∀ x, x ∈ called ↔ x ∈ registered ∧ x.termFunc ≠ 0 ∧ x ∉ waiting
  nodup : called.Nodup

variable {registered waiting called : List Entry} {entry : Entry}

theorem Ledger.number_lt (h : Ledger registered waiting called) {x : Entry}
    (hx : x ∈ registered) : x.number < registered.length := by
  obtain ⟨i, hi, rfl⟩ := List.mem_iff_getElem.mp hx
  rw [h.numbers i _ (List.getElem?_eq_getElem hi)]
  exact hi

theorem Ledger.nodup_registered (h : Ledger registered waiting called) : registered.Nodup := by
  rw [List.nodup_iff_getElem?_ne_getElem?]
  intro i j hij hj heq
  have hi := List.getElem?_eq_getElem (Nat.lt_trans hij hj)
  have hnum := h.numbers i _ hi
  rw [h.numbers j _ (heq.symm.trans hi)] at hnum
  omega

theorem Ledger.register (h : Ledger registered waiting called) (func objAddr : BitVec 64) :
    Ledger (registered ++ [⟨registered.length, func, objAddr⟩])
      (⟨registered.length, func, objAddr⟩ :: waiting) called := by
  have hnew : ∀ {x}, x ∈ registered → x ≠ ⟨registered.length, func, objAddr⟩ := by
    intro x hx heq
    have hlt := h.number_lt hx
    rw [heq] at hlt
    exact Nat.lt_irrefl _ hlt
  refine ⟨fun i x hi => ?_, ?_, fun x hx => ?_, fun x => ?_, h.nodup⟩
  · by_cases hlt : i < registered.length
    · rw [List.getElem?_append_left hlt] at hi
      exact h.numbers i x hi
    · rw [List.getElem?_append_right (Nat.le_of_not_lt hlt), List.getElem?_singleton] at hi
      split at hi
      · next h0 =>
        obtain rfl := Option.some.inj hi
        change registered.length = i
        omega
      · cases hi
  · refine List.pairwise_cons.mpr ⟨fun x hx => ?_, h.sorted⟩
    exact h.number_lt (h.waiting_registered x hx)
  · rcases List.mem_cons.mp hx with rfl | hx
    · exact List.mem_append_right _ (List.mem_singleton_self _)
    · exact List.mem_append_left _ (h.waiting_registered x hx)
  · rw [h.called_iff, List.mem_append, List.mem_singleton, List.mem_cons, not_or]
    constructor
    · rintro ⟨hr, hf, hw⟩
      exact ⟨.inl hr, hf, hnew hr, hw⟩
    · rintro ⟨hr, hf, hne, hw⟩
      exact ⟨hr.resolve_right hne, hf, hw⟩

theorem Ledger.not_waiting (h : Ledger registered (entry :: waiting) called) :
    entry ∉ waiting := fun hmem =>
  Nat.lt_irrefl _ ((List.pairwise_cons.mp h.sorted).1 entry hmem)

theorem Ledger.call (h : Ledger registered (entry :: waiting) called)
    (hf : entry.termFunc ≠ 0) : Ledger registered waiting (called ++ [entry]) := by
  have hmem := h.waiting_registered entry List.mem_cons_self
  have hnot : entry ∉ called := fun hc => ((h.called_iff entry).mp hc).2.2 List.mem_cons_self
  refine ⟨h.numbers, (List.pairwise_cons.mp h.sorted).2, fun x hx => ?_, fun x => ?_, ?_⟩
  · exact h.waiting_registered x (List.mem_cons_of_mem _ hx)
  · rw [List.mem_append, List.mem_singleton, h.called_iff, List.mem_cons, not_or]
    constructor
    · rintro (⟨hr, hx, _, hw⟩ | rfl)
      · exact ⟨hr, hx, hw⟩
      · exact ⟨hmem, hf, h.not_waiting⟩
    · rintro ⟨hr, hx, hw⟩
      by_cases heq : x = entry
      · exact .inr heq
      · exact .inl ⟨hr, hx, heq, hw⟩
  · refine List.nodup_append.mpr ⟨h.nodup, List.nodup_singleton _, fun x hx y hy hxy => ?_⟩
    rw [hxy, List.mem_singleton.mp hy] at hx
    exact hnot hx

theorem Ledger.skip (h : Ledger registered (entry :: waiting) called)
    (hf : entry.termFunc = 0) : Ledger registered waiting called := by
  refine ⟨h.numbers, (List.pairwise_cons.mp h.sorted).2, fun x hx => ?_, fun x => ?_, h.nodup⟩
  · exact h.waiting_registered x (List.mem_cons_of_mem _ hx)
  · rw [h.called_iff, List.mem_cons, not_or]
    constructor
    · rintro ⟨hr, hx, _, hw⟩
      exact ⟨hr, hx, hw⟩
    · rintro ⟨hr, hx, hw⟩
      exact ⟨hr, hx, fun heq => hx (heq ▸ hf), hw⟩

theorem Ledger.last (h : Ledger registered (entry :: waiting) called) {x : Entry}
    (hx : x ∈ registered) (hf : x.termFunc ≠ 0) (hnot : x ∉ called) :
    x.number ≤ entry.number := by
  have hw : x ∈ entry :: waiting := by
    by_contra hw
    exact hnot ((h.called_iff x).mpr ⟨hx, hf, hw⟩)
  rcases List.mem_cons.mp hw with rfl | hw
  · exact Nat.le_refl _
  · exact Nat.le_of_lt ((List.pairwise_cons.mp h.sorted).1 x hw)

theorem Ledger.all_called (h : Ledger registered [] called) :
    called.Perm (registered.filter (·.termFunc ≠ 0)) := by
  refine (List.perm_ext_iff_of_nodup h.nodup (h.nodup_registered.filter _)).mpr fun x => ?_
  rw [h.called_iff, List.mem_filter]
  simp

def Ready (t : Tlv) : Prop := Dynamic t.terminatorsKey ∧ Live t.tsd t.terminatorsKey

structure Puts (t u : Tlv) (value : Option TerminatorList) : Prop where
  slot : u.slot = value
  keys : u.tsd.keys = t.tsd.keys
  key : u.terminatorsKey = t.terminatorsKey

variable {t u : Tlv}

theorem Puts.ready {value : Option TerminatorList} (h : Puts t u value) (ht : Ready t) :
    Ready u := by
  unfold Ready Live
  rw [h.keys, h.key]
  exact ht

theorem setspecific_puts (h : Ready t) (value : Option TerminatorList) :
    Puts t (t.setspecific value) value := by
  have hset : Settable t.tsd t.terminatorsKey :=
    ⟨Nat.le_trans (by decide) h.1.1, h.1.2, .inr h.2⟩
  have hstart : ¬ t.terminatorsKey < pthreadTsdStart := Nat.not_lt.mpr h.1.1
  refine ⟨?_, ?_, rfl⟩
  · simp only [Tlv.slot, Tlv.setspecific, setspecific_eq, if_pos hset, zPthreadGetspecific, stored,
      setThread_tsd, if_true, Function.update_self]
  · simp only [Tlv.setspecific, setspecific_eq, if_pos hset, stored, if_neg hstart]
    rfl

theorem writeList_puts (t : Tlv) (list : TerminatorList) :
    Puts t (t.writeList list) (some list) := by
  refine ⟨?_, rfl, rfl⟩
  simp only [Tlv.slot, Tlv.writeList, zPthreadGetspecific, setThread_tsd, if_true,
    Function.update_self]

theorem Puts.write {value : Option TerminatorList} (h : Puts t u value)
    (list : TerminatorList) : Puts t (u.writeList list) (some list) :=
  have hw := writeList_puts u list
  ⟨hw.slot, hw.keys.trans h.keys, hw.key.trans h.key⟩

def entriesOf (t : Tlv) : List Entry := (t.slot.map (·.entries)).getD []

def Doubled (t : Tlv) : Prop := ∀ list, t.slot = some list → ∃ k ≤ 31, list.allocCount = 2 ^ k

theorem append_some {list : TerminatorList} (h : list.entries.length < list.allocCount)
    (entry : Entry) : ∃ list', list.append entry = some list' ∧
      list'.allocCount = list.allocCount ∧ list'.entries = list.entries ++ [entry] :=
  ⟨_, dif_pos h, rfl, rfl⟩

theorem resize_some {list : TerminatorList} {k : ℕ} (hpow : list.allocCount = 2 ^ k)
    (hk : k < 31) : ∃ newlist, list.resize = some newlist ∧ newlist.allocCount = 2 ^ (k + 1) ∧
      newlist.entries = list.entries := by
  have hnew : list.allocCount * 2 % 2 ^ 32 = 2 ^ (k + 1) := by
    rw [hpow, ← Nat.pow_succ]
    exact Nat.mod_eq_of_lt (Nat.pow_lt_pow_right (Nat.lt_succ_self 1) (by omega))
  have hfits : list.entries.length ≤ list.allocCount * 2 % 2 ^ 32 := by
    rw [hnew, Nat.pow_succ, ← hpow]
    exact Nat.le_trans list.fits (Nat.le_mul_of_pos_right _ Nat.two_pos)
  exact ⟨_, dif_pos hfits, hnew, rfl⟩

/-- The doubled size is 0 in 32 bits. -/
theorem resize_none {list : TerminatorList} (hpow : list.allocCount = 2 ^ 31) :
    list.resize = none := by
  refine dif_neg fun hfits => list.nonempty (List.length_eq_zero_iff.mp ?_)
  rw [hpow] at hfits
  exact Nat.le_zero.mp hfits

theorem atexit_appends {malloced : Bool} (ht : Ready t) (hd : Doubled t)
    (hroom : RoomLeft t malloced) (entry : Entry) :
    ∃ u list, zPthreadTlvAtexit malloced t entry = some u ∧ Puts t u (some list) ∧
      list.entries = entriesOf t ++ [entry] ∧ ∃ k ≤ 31, list.allocCount = 2 ^ k := by
  unfold RoomLeft at hroom
  unfold zPthreadTlvAtexit entriesOf
  cases hs : t.slot with
  | none =>
    rw [hs] at hroom
    exact ⟨_, _, if_pos hroom, setspecific_puts ht _, rfl, 0, by decide, rfl⟩
  | some list =>
    rw [hs] at hroom
    obtain ⟨hlt, hmalloc⟩ := hroom
    obtain ⟨k, hk, hpow⟩ := hd list hs
    by_cases hfull : list.entries.length = list.allocCount
    · have hk31 : k < 31 := by
        refine (Nat.pow_lt_pow_iff_right (Nat.lt_succ_self 1)).mp ?_
        rw [← hpow, ← hfull]
        exact hlt
      obtain ⟨newlist, hresize, hnewcount, hnewentries⟩ := resize_some hpow hk31
      have hfits : newlist.entries.length < newlist.allocCount := by
        rw [hnewentries, hfull, hnewcount, hpow]
        exact Nat.pow_lt_pow_right (Nat.lt_succ_self 1) (Nat.lt_succ_self k)
      obtain ⟨list', happend, hcount, hentries⟩ := append_some hfits entry
      refine ⟨(t.setspecific (some newlist)).writeList list', list', ?_,
        (setspecific_puts ht _).write list', ?_, k + 1, hk31, hcount.trans hnewcount⟩
      · simp only [if_pos hfull, if_pos (hmalloc hfull), hresize, Option.bind_some, happend,
          Option.map_some]
      · rw [hentries, hnewentries]
        rfl
    · obtain ⟨list', happend, hcount, hentries⟩ :=
        append_some (Nat.lt_of_le_of_ne list.fits hfull) entry
      refine ⟨_, list', ?_, writeList_puts t list', hentries, k, hk, hcount.trans hpow⟩
      simp only [if_neg hfull, happend, Option.map_some]

/-- Without, nothing is: the block is missing, or its size has wrapped. -/
theorem atexit_none {malloced : Bool} (hd : Doubled t) (hroom : ¬ RoomLeft t malloced)
    (entry : Entry) : zPthreadTlvAtexit malloced t entry = none := by
  unfold RoomLeft at hroom
  unfold zPthreadTlvAtexit
  cases hs : t.slot with
  | none =>
    rw [hs] at hroom
    exact if_neg hroom
  | some list =>
    rw [hs] at hroom
    obtain ⟨k, hk, hpow⟩ := hd list hs
    have hle : list.allocCount ≤ 2 ^ 31 := by
      rw [hpow]
      exact Nat.pow_le_pow_right Nat.two_pos hk
    by_cases hlt : list.entries.length < 2 ^ 31
    · have hfull : list.entries.length = list.allocCount ∧ ¬ malloced = true := by
        by_contra hno
        exact hroom ⟨hlt, fun hfull => by_contra fun hm => hno ⟨hfull, hm⟩⟩
      simp only [if_pos hfull.1, if_neg hfull.2]
    · have hfull : list.entries.length = list.allocCount :=
        Nat.le_antisymm list.fits (Nat.le_trans hle (Nat.le_of_not_lt hlt))
      have h31 : list.allocCount = 2 ^ 31 :=
        Nat.le_antisymm hle (hfull ▸ Nat.le_of_not_lt hlt)
      simp only [if_pos hfull, resize_none h31, Option.bind_none, ite_self]

/-! `TlvTerminators` has the list among all the values of the thread, and a block that is never
missing or overrun. -/

section Shows

variable {f : Entry → TlvTerminators.Entry} {s : TlvTerminators.Tlv} {value : Option TerminatorList}
  {malloced : Bool} {entry : Entry}

def listOf (f : Entry → TlvTerminators.Entry) (list : TerminatorList) :
    TlvTerminators.TerminatorList := ⟨list.allocCount, list.entries.map f⟩

def valueOf (f : Entry → TlvTerminators.Entry) (list : TerminatorList) : TlvTerminators.Value :=
  .terminators (listOf f list)

structure Shows (f : Entry → TlvTerminators.Entry) (t : Tlv) (s : TlvTerminators.Tlv) : Prop where
  key : s.terminatorsKey = t.terminatorsKey
  live : s.tsd.keys s.terminatorsKey = t.tsd.keys t.terminatorsKey
  slot : s.slot s.terminatorsKey = t.slot.map (valueOf f)

theorem Shows.settable (h : Shows f t s) (ht : Ready t) : Settable s.tsd s.terminatorsKey := by
  refine ⟨?_, ?_, .inr ?_⟩
  · rw [h.key]
    exact Nat.le_trans (by decide) ht.1.1
  · rw [h.key]
    exact ht.1.2
  · rw [Live, h.live]
    exact ht.2

theorem Shows.puts {r : TlvTerminators.Tlv} (h : Shows f t s) (ht : Ready t)
    (hu : Puts t u value)
    (hr : TlvTerminators.Sets s r s.terminatorsKey (value.map (valueOf f))) : Shows f u r where
  key := hr.terminatorsKey.trans (h.key.trans hu.key.symm)
  live := by
    have hdynamic : ¬s.terminatorsKey < pthreadTsdStart := Nat.not_lt.mpr (h.key ▸ ht.1.1)
    have hsame := (hr.keys s.terminatorsKey).resolve_right fun hstatic => hdynamic hstatic.1
    rw [hr.terminatorsKey, hsame, h.live, hu.keys, hu.key]
  slot := by rw [hr.terminatorsKey, hr.slot, if_pos rfl, hu.slot]

theorem Shows.setspecific (h : Shows f t s) (ht : Ready t) (value : Option TerminatorList) :
    Shows f (t.setspecific value)
      (s.setspecific s.terminatorsKey (value.map (valueOf f))) :=
  h.puts ht (setspecific_puts ht value) (TlvTerminators.setspecific_sets (h.settable ht) _)

theorem Shows.writeList (h : Shows f t s) (ht : Ready t) (list : TerminatorList) :
    Shows f (t.writeList list) (s.writeList (listOf f list)) :=
  h.puts ht (writeList_puts t list) (TlvTerminators.writeList_sets _)

theorem listOf_append {list list' : TerminatorList} (h : list.append entry = some list') :
    listOf f list' = ⟨(listOf f list).allocCount, (listOf f list).entries ++ [f entry]⟩ := by
  unfold TerminatorList.append at h
  split at h
  · obtain rfl := Option.some.inj h
    simp only [listOf, List.map_append, List.map_singleton]
  · cases h

theorem listOf_resize {list newlist : TerminatorList} (h : list.resize = some newlist) :
    listOf f newlist = ⟨(listOf f list).allocCount * 2 % 2 ^ 32, (listOf f list).entries⟩ := by
  unfold TerminatorList.resize at h
  dsimp only at h
  split at h
  · obtain rfl := Option.some.inj h
    rfl
  · cases h

/-- A registration that returns has left the same list. -/
theorem atexit_shows (h : Shows f t s) (ht : Ready t)
    (hu : zPthreadTlvAtexit malloced t entry = some u) :
    Shows f u (TlvTerminators.zPthreadTlvAtexit s (f entry)) := by
  unfold zPthreadTlvAtexit at hu
  unfold TlvTerminators.zPthreadTlvAtexit
  rw [h.slot]
  cases hs : t.slot with
  | none =>
    simp only [hs] at hu
    split at hu
    · obtain rfl := Option.some.inj hu
      exact h.setspecific ht _
    · cases hu
  | some list =>
    have hlength : (listOf f list).entries.length = list.entries.length := List.length_map _
    have hcount : (listOf f list).allocCount = list.allocCount := rfl
    simp only [hs] at hu
    simp only [Option.map_some, valueOf, hlength, hcount]
    by_cases hfull : list.entries.length = list.allocCount
    · rw [if_pos hfull] at hu ⊢
      split at hu
      · obtain ⟨newlist, hresize, hmap⟩ := Option.bind_eq_some_iff.mp hu
        obtain ⟨list', happend, rfl⟩ := Option.map_eq_some_iff.mp hmap
        have hset := h.setspecific ht (some newlist)
        have hready := (setspecific_puts ht (some newlist)).ready ht
        have hwritten := hset.writeList hready list'
        rw [listOf_append happend, Option.map_some, valueOf, listOf_resize hresize] at hwritten
        exact hwritten
      · cases hu
    · rw [if_neg hfull] at hu ⊢
      obtain ⟨list', happend, rfl⟩ := Option.map_eq_some_iff.mp hu
      have hwritten := h.writeList ht list'
      rw [listOf_append happend] at hwritten
      exact hwritten

/-- With room left a registration here is one there. -/
theorem atexit_refines (h : Shows f t s) (ht : Ready t) (hd : Doubled t)
    (hroom : RoomLeft t malloced) (entry : Entry) :
    ∃ u, zPthreadTlvAtexit malloced t entry = some u ∧ Ready u ∧ Doubled u ∧
      Shows f u (TlvTerminators.zPthreadTlvAtexit s (f entry)) := by
  obtain ⟨u, list, hu, hputs, -, hpow⟩ := atexit_appends ht hd hroom entry
  refine ⟨u, hu, hputs.ready ht, fun list' hlist' => ?_, atexit_shows h ht hu⟩
  obtain rfl := Option.some.inj (hputs.slot.symm.trans hlist')
  exact hpow

end Shows

def waitingOf (s : State) : List Entry :=
  (entriesOf s.tlv).reverse ++ s.frames.flatMap (·.left)

structure Kept (s : State) : Prop where
  ready : Ready s.tlv
  doubled : Doubled s.tlv
  idle : s.busy = false → s.tlv.slot = none ∧ s.frames ≠ []
  bottom : ∀ f, s.frames.getLast? = some f → f.fromExit = true
  ledger : Ledger s.registered (waitingOf s) s.called
  sound : s.faulted = false

variable {s : State}

theorem entriesOf_some {list : TerminatorList} (h : t.slot = some list) :
    entriesOf t = list.entries := by
  rw [entriesOf, h]
  rfl

theorem entriesOf_none (h : t.slot = none) : entriesOf t = [] := by
  rw [entriesOf, h]
  rfl

theorem doubled_none (h : t.slot = none) : Doubled t := by
  intro list hlist
  rw [h] at hlist
  cases hlist

theorem Kept.finalizeList (h : Kept s) {list : TerminatorList} (hs : s.tlv.slot = some list)
    {fromExit : Bool} (hbottom : s.frames = [] → fromExit = true) :
    Kept (zPthreadTlvFinalizeList { s with tlv := s.tlv.setspecific none } list fromExit) := by
  have hputs := setspecific_puts h.ready none
  refine ⟨hputs.ready h.ready, doubled_none hputs.slot,
    fun _ => ⟨hputs.slot, List.cons_ne_nil _ _⟩, fun f hf => ?_, ?_, h.sound⟩
  · change (⟨_, fromExit⟩ :: s.frames).getLast? = some f at hf
    cases hframes : s.frames with
    | nil =>
      rw [hframes] at hf
      obtain rfl := Option.some.inj hf
      exact hbottom hframes
    | cons g rest =>
      rw [hframes, List.getLast?_cons_cons, ← hframes] at hf
      exact h.bottom f hf
  · have hwaiting : waitingOf (zPthreadTlvFinalizeList
        { s with tlv := s.tlv.setspecific none } list fromExit) = waitingOf s := by
      change (entriesOf (s.tlv.setspecific none)).reverse ++
        (list.entries.reverse ++ s.frames.flatMap (·.left)) = _
      rw [entriesOf_none hputs.slot, waitingOf, entriesOf_some hs]
      rfl
    rw [hwaiting]
    exact h.ledger

theorem Kept.finalizeNew (h : Kept s) (hframes : s.frames ≠ []) : Kept (finalizeNew s) := by
  unfold TlvExit.finalizeNew
  cases hs : s.tlv.slot with
  | none => exact ⟨h.ready, h.doubled, fun _ => ⟨hs, hframes⟩, h.bottom, h.ledger, h.sound⟩
  | some list => exact h.finalizeList hs fun hnil => absurd hnil hframes

theorem Kept.exit (h : Kept s) : Kept (zPthreadTlvExit s) := by
  unfold zPthreadTlvExit
  cases hs : s.tlv.slot with
  | none => exact h
  | some list => exact h.finalizeList hs fun _ => rfl

theorem Kept.waiting_idle (h : Kept s) (hidle : s.busy = false) :
    waitingOf s = s.frames.flatMap (·.left) := by
  rw [waitingOf, entriesOf_none (h.idle hidle).1]
  rfl

inductive LoopStep (s : State) : Prop where
  | finished (fromExit : Bool) (rest : List Frame) (hframes : s.frames = ⟨[], fromExit⟩ :: rest)
      (hnext : next s .tick = { s with frames := rest, busy := fromExit })
  | called (entry : Entry) (left : List Entry) (fromExit : Bool) (rest : List Frame)
      (hframes : s.frames = ⟨entry :: left, fromExit⟩ :: rest) (hf : entry.termFunc ≠ 0)
      (hnext : next s .tick =
        { s with frames := ⟨left, fromExit⟩ :: rest, busy := true, called := s.called ++ [entry] })
  | skipped (entry : Entry) (left : List Entry) (fromExit : Bool) (rest : List Frame)
      (hframes : s.frames = ⟨entry :: left, fromExit⟩ :: rest) (hf : entry.termFunc = 0)
      (hnext : next s .tick = { s with frames := ⟨left, fromExit⟩ :: rest })

theorem Kept.loopStep (h : Kept s) (hidle : s.busy = false) : LoopStep s := by
  obtain ⟨hslot, hframes⟩ := h.idle hidle
  rcases hs : s.frames with _ | ⟨⟨_ | ⟨entry, left⟩, fromExit⟩, rest⟩
  · exact absurd hs hframes
  · refine .finished fromExit rest hs ?_
    rw [next, hs]
    rfl
  · by_cases hf : entry.termFunc = 0
    · refine .skipped entry left fromExit rest hs hf ?_
      rw [next, hs, TlvExit.loopStep]
      simp only [hf, ne_eq, not_true_eq_false, if_false, TlvExit.finalizeNew, hslot]
      rw [← hidle]
    · refine .called entry left fromExit rest hs hf ?_
      rw [next, hs, TlvExit.loopStep]
      exact if_pos hf

theorem getLast_left {f g : Frame} {rest : List Frame} (hg : g.fromExit = f.fromExit)
    (h : ∀ e, (f :: rest).getLast? = some e → e.fromExit = true) :
    ∀ e, (g :: rest).getLast? = some e → e.fromExit = true := by
  intro e he
  cases rest with
  | nil =>
    obtain rfl := Option.some.inj he
    exact hg.trans (h f rfl)
  | cons a rest =>
    rw [List.getLast?_cons_cons] at he
    exact h e ((List.getLast?_cons_cons).trans he)

theorem Kept.tick (h : Kept s) (hidle : s.busy = false) : Kept (next s .tick) := by
  have hslot := (h.idle hidle).1
  have hledger := h.ledger
  rw [h.waiting_idle hidle] at hledger
  have hwaiting : ∀ u : State, u.tlv = s.tlv → waitingOf u = u.frames.flatMap (·.left) := by
    intro u hu
    rw [waitingOf, hu, entriesOf_none hslot]
    rfl
  rcases h.loopStep hidle with ⟨fromExit, rest, hframes, hnext⟩ |
    ⟨entry, left, fromExit, rest, hframes, hf, hnext⟩ |
    ⟨entry, left, fromExit, rest, hframes, hf, hnext⟩
  · rw [hnext]
    rw [hframes, List.flatMap_cons, List.nil_append] at hledger
    have hbottom := h.bottom
    rw [hframes] at hbottom
    refine ⟨h.ready, h.doubled, fun hfalse => ⟨hslot, ?_⟩, fun f hf => ?_, ?_, h.sound⟩
    · rintro rfl
      have htrue : fromExit = true := hbottom _ rfl
      exact absurd (htrue.symm.trans hfalse) (by decide)
    · cases rest with
      | nil => cases hf
      | cons a rest => exact hbottom f ((List.getLast?_cons_cons).trans hf)
    · rw [hwaiting { s with frames := rest, busy := fromExit } rfl]
      exact hledger
  · rw [hnext]
    have hbottom := h.bottom
    rw [hframes] at hledger hbottom
    refine ⟨h.ready, h.doubled, fun hfalse => (nomatch hfalse), ?_, ?_, h.sound⟩
    · exact getLast_left (f := ⟨entry :: left, fromExit⟩) rfl hbottom
    · rw [hwaiting { s with
        frames := ⟨left, fromExit⟩ :: rest, busy := true, called := s.called ++ [entry] } rfl]
      exact hledger.call hf
  · rw [hnext]
    have hbottom := h.bottom
    rw [hframes] at hledger hbottom
    refine ⟨h.ready, h.doubled, fun _ => ⟨hslot, List.cons_ne_nil _ _⟩, ?_, ?_, h.sound⟩
    · exact getLast_left (f := ⟨entry :: left, fromExit⟩) rfl hbottom
    · rw [hwaiting { s with frames := ⟨left, fromExit⟩ :: rest } rfl]
      exact hledger.skip hf

theorem Kept.register (h : Kept s) (func objAddr : BitVec 64) {malloced : Bool}
    (hbusy : s.busy = true) (hroom : RoomLeft s.tlv malloced) :
    Kept (next s (.register func objAddr malloced)) := by
  obtain ⟨u, list, hu, hputs, hentries, hpow⟩ :=
    atexit_appends h.ready h.doubled hroom ⟨s.registered.length, func, objAddr⟩
  have hnext : next s (.register func objAddr malloced) = { s with
      tlv := u, registered := s.registered ++ [⟨s.registered.length, func, objAddr⟩] } := by
    simp only [next, hu]
  rw [hnext]
  refine ⟨hputs.ready h.ready, fun list' hlist => ?_, fun hidle => ?_, h.bottom, ?_, h.sound⟩
  · obtain rfl := Option.some.inj (hputs.slot.symm.trans hlist)
    exact hpow
  · exact absurd (hbusy.symm.trans hidle) (by decide)
  · have hwaiting : waitingOf { s with
        tlv := u, registered := s.registered ++ [⟨s.registered.length, func, objAddr⟩] } =
        ⟨s.registered.length, func, objAddr⟩ :: waitingOf s := by
      rw [waitingOf, entriesOf_some hputs.slot, hentries, List.reverse_append]
      rfl
    rw [hwaiting]
    exact h.ledger.register func objAddr

theorem Kept.step (h : Kept s) {e : Event} (he : Enabled s e) (hg : roomLeft s e) :
    Kept (next s e) := by
  cases e with
  | register func objAddr malloced => exact h.register func objAddr he.2 hg
  | exit => exact h.exit
  | ret => exact h.finalizeNew he.2.2
  | tick => exact h.tick he.2

theorem start_kept [CodeAddresses] {tsd : TsdKeys.State Unit TerminatorList}
    (h : TsdKeys.Initial tsd) :
    Kept (start tsd) := by
  rcases create_cases tsd tlvFinalize with ⟨k, hk, hdead, hcreate⟩ | ⟨hall, _⟩
  · have hkey : (start tsd).tlv = ⟨{ tsd with
        keys := Function.update tsd.keys k (~~~tlvFinalize) }, k⟩ := by
      simp only [start, zPthreadTlvInitializer, hcreate]
      rfl
    have hslot : (start tsd).tlv.slot = none := by
      rw [hkey]
      exact h.tsd () k (Nat.le_trans (by decide) hk.1)
    refine ⟨?_, doubled_none hslot, fun hidle => (nomatch hidle), fun f hf => (nomatch hf), ?_, rfl⟩
    · rw [hkey]
      refine ⟨hk, ?_⟩
      change Function.update tsd.keys k _ k ≠ _
      rw [Function.update_self]
      exact finalize_kept
    · rw [waitingOf, entriesOf_none hslot]
      exact ⟨fun i x hx => (nomatch hx), .nil, fun x hx => (nomatch hx),
        fun x => iff_of_false (List.not_mem_nil) fun hx => (nomatch hx.1), List.nodup_nil⟩
  · exact absurd (h.keys 256) (hall 256 (by decide))

theorem kept_inductive [CodeAddresses] : Inductive exitSystem roomLeft Kept where
  initial s hs := by
    obtain ⟨tsd, htsd, rfl⟩ := hs
    exact start_kept htsd
  step s e h he hg := h.step he hg

theorem finalizeNew_called (s : State) : (finalizeNew s).called = s.called := by
  unfold finalizeNew
  cases s.tlv.slot with
  | none => rfl
  | some list => rfl

theorem zPthreadTlvExit_called (s : State) : (zPthreadTlvExit s).called = s.called := by
  unfold zPthreadTlvExit
  cases s.tlv.slot with
  | none => rfl
  | some list => rfl

theorem Kept.calls (h : Kept s) {e : Event} (he : Enabled s e) :
    (next s e).called = s.called ∨
      ∃ entry, (next s e).called = s.called ++ [entry] ∧ MostRecent s entry := by
  cases e with
  | register func objAddr malloced =>
    left
    simp only [next]
    split
    · rfl
    · rfl
  | exit => exact .inl (zPthreadTlvExit_called s)
  | ret => exact .inl (finalizeNew_called s)
  | tick =>
    have hidle : s.busy = false := he.2
    rcases h.loopStep hidle with ⟨fromExit, rest, hframes, hnext⟩ |
      ⟨entry, left, fromExit, rest, hframes, hf, hnext⟩ |
      ⟨entry, left, fromExit, rest, hframes, hf, hnext⟩
    · left
      rw [hnext]
    · right
      have hledger := h.ledger
      rw [h.waiting_idle hidle, hframes] at hledger
      refine ⟨entry, by rw [hnext], hledger.waiting_registered _ List.mem_cons_self, hf, ?_, ?_⟩
      · intro hc
        exact ((hledger.called_iff entry).mp hc).2.2 List.mem_cons_self
      · intro x hx
        exact hledger.last hx
    · left
      rw [hnext]

theorem Kept.all_called (h : Kept s) (hframes : s.frames = []) (hslot : s.tlv.slot = none) :
    AllCalled s := by
  have hledger := h.ledger
  rw [waitingOf, entriesOf_none hslot, hframes] at hledger
  exact hledger.all_called

theorem Kept.returns (h : Kept s) {e : Event} (he : Enabled s e) (hr : Returns s e) :
    AllCalled (next s e) ∧ (next s e).tlv.slot = none := by
  obtain ⟨hframes, hwhich⟩ := hr
  have hslot : (next s e).tlv.slot = none ∧ roomLeft s e := by
    cases e with
    | register func objAddr malloced => exact hwhich.elim
    | ret => exact hwhich.elim
    | exit =>
      refine ⟨?_, trivial⟩
      simp only [next, zPthreadTlvExit] at hframes ⊢
      split at hframes
      · next hs => exact hs
      · exact absurd hframes (List.cons_ne_nil _ _)
    | tick =>
      refine ⟨?_, trivial⟩
      have hslot := (h.idle he.2).1
      rcases h.loopStep he.2 with ⟨_, _, _, hnext⟩ | ⟨_, _, _, _, _, _, hnext⟩ |
        ⟨_, _, _, _, _, _, hnext⟩
      all_goals
        rw [hnext]
        exact hslot
  exact ⟨(h.step he hslot.2).all_called hframes hslot.1, hslot.1⟩

def pendingWork (t : Tlv) : ℕ := (t.slot.map (·.entries.length + 1)).getD 0

/-- Steps still to come, where a running terminator counts for its return. -/
def stepsLeft (s : State) : ℕ :=
  2 * (pendingWork s.tlv + (s.frames.map (·.left.length + 1)).sum) + s.busy.toNat

theorem pendingWork_none (h : t.slot = none) : pendingWork t = 0 := by
  rw [pendingWork, h]
  rfl

theorem finalizeNew_steps (h : Kept s) (hbusy : s.busy = true) :
    stepsLeft (finalizeNew s) < stepsLeft s := by
  unfold finalizeNew
  cases hs : s.tlv.slot with
  | none =>
    simp only [stepsLeft, hbusy, Bool.toNat_true, Bool.toNat_false]
    omega
  | some list =>
    have hputs := setspecific_puts h.ready none
    have hwork : pendingWork s.tlv = list.entries.length + 1 := by
      rw [pendingWork, hs]
      rfl
    simp only [stepsLeft, zPthreadTlvFinalizeList, hbusy, hwork, pendingWork_none hputs.slot,
      List.map_cons, List.sum_cons, List.length_reverse, Bool.toNat_true, Bool.toNat_false]
    omega

theorem tick_steps (h : Kept s) (hidle : s.busy = false) :
    stepsLeft (next s .tick) < stepsLeft s := by
  have hslot := pendingWork_none (h.idle hidle).1
  rcases h.loopStep hidle with ⟨fromExit, rest, hframes, hnext⟩ |
    ⟨entry, left, fromExit, rest, hframes, hf, hnext⟩ |
    ⟨entry, left, fromExit, rest, hframes, hf, hnext⟩
  · have hle : fromExit.toNat ≤ 1 := Bool.toNat_le fromExit
    simp only [hnext, stepsLeft, hframes, hidle, hslot, List.map_cons, List.sum_cons,
      List.length_nil, Bool.toNat_false]
    omega
  · simp only [hnext, stepsLeft, hframes, hidle, hslot, List.map_cons, List.sum_cons,
      List.length_cons, Bool.toNat_true, Bool.toNat_false]
    omega
  · simp only [hnext, stepsLeft, hframes, hidle, hslot, List.map_cons, List.sum_cons,
      List.length_cons, Bool.toNat_false]
    omega

theorem Kept.terminates [CodeAddresses] (h : Kept s) : ∃ es, ValidTrace exitSystem roomLeft s es ∧
    (∀ e ∈ es, e = .ret ∨ e = .tick) ∧ (runTrace exitSystem s es).frames = [] := by
  induction hn : stepsLeft s using Nat.strongRecOn generalizing s with
  | _ n ih =>
    by_cases hframes : s.frames = []
    · exact ⟨[], trivial, by simp, hframes⟩
    · have hstep : ∃ e, (e = .ret ∨ e = .tick) ∧ Enabled s e ∧ roomLeft s e ∧
          stepsLeft (next s e) < stepsLeft s := by
        cases hbusy : s.busy with
        | true => exact ⟨.ret, .inl rfl, ⟨h.sound, hbusy, hframes⟩, trivial,
            finalizeNew_steps h hbusy⟩
        | false => exact ⟨.tick, .inr rfl, ⟨h.sound, hbusy⟩, trivial, tick_steps h hbusy⟩
      obtain ⟨e, hwhich, he, hg, hlt⟩ := hstep
      obtain ⟨es, hvalid, hes, hend⟩ := ih _ (hn ▸ hlt) (h.step he hg) rfl
      refine ⟨e :: es, ⟨⟨he, hg⟩, hvalid⟩, fun e' he' => ?_, hend⟩
      rcases List.mem_cons.mp he' with rfl | he'
      · exact hwhich
      · exact hes e' he'

/-- With room for every terminator each is called in its turn, and none is left when
`z_pthread_tlv_exit` returns, which it does; without, a block is missing or overrun. -/
theorem exit_runs_all [CodeAddresses] {s : State} (h : ReachableUnder exitSystem roomLeft s) :
    s.faulted = false ∧
      (∀ e, Enabled s e → (next s e).called = s.called ∨
        ∃ entry, (next s e).called = s.called ++ [entry] ∧ MostRecent s entry) ∧
      (∀ e, Enabled s e → Returns s e →
        AllCalled (next s e) ∧ (next s e).tlv.slot = none) ∧
      (∃ es, ValidTrace exitSystem roomLeft s es ∧ (∀ e ∈ es, e = .ret ∨ e = .tick) ∧
        (runTrace exitSystem s es).frames = []) ∧
      ∀ e, ¬ roomLeft s e → (next s e).faulted = true := by
  have hkept := kept_inductive.reachable h
  refine ⟨hkept.sound, fun e he => hkept.calls he, fun e he hr => hkept.returns he hr,
    hkept.terminates, fun e hg => ?_⟩
  cases e with
  | register func objAddr malloced =>
    simp only [next, atexit_none hkept.doubled hg]
  | exit => exact absurd trivial hg
  | ret => exact absurd trivial hg
  | tick => exact absurd trivial hg

local instance : CodeAddresses := TlvTerminators.placed

theorem start_initial : exitSystem.Initial (start zeroed) := ⟨zeroed, zeroed_initial, rfl⟩

def twoTerminators : State :=
  runTrace exitSystem (start zeroed) [.register 0x4000 8 true, .register 0x4010 16 true, .exit,
    .tick, .ret, .tick, .ret]

theorem exit_runs_all_two :
    (next twoTerminators .tick).called = [⟨1, 0x4010, 16⟩, ⟨0, 0x4000, 8⟩] ∧
      AllCalled (next twoTerminators .tick) ∧ (next twoTerminators .tick).tlv.slot = none := by
  have hreach : ReachableUnder exitSystem roomLeft twoTerminators := by
    refine valid_trace_reachable start_initial ⟨⟨⟨rfl, rfl⟩, ?_⟩, ⟨⟨rfl, rfl⟩, ?_⟩,
      ⟨⟨rfl, rfl⟩, trivial⟩, ⟨⟨rfl, rfl⟩, trivial⟩, ⟨⟨rfl, rfl, by decide⟩, trivial⟩,
      ⟨⟨rfl, rfl⟩, trivial⟩, ⟨⟨rfl, rfl, by decide⟩, trivial⟩, trivial⟩
    · exact rfl
    · exact ⟨show 1 < 2 ^ 31 by decide, fun _ => rfl⟩
  exact ⟨by decide, (exit_runs_all hreach).2.2.1 .tick ⟨rfl, rfl⟩ ⟨rfl, trivial⟩⟩

def registeredTimes : ℕ → State
  | 0 => start zeroed
  | n + 1 => next (registeredTimes n) (.register 0x4000 0 true)

theorem registeredTimes_reachable {n : ℕ} (hn : n ≤ 2 ^ 31) :
    ReachableUnder exitSystem roomLeft (registeredTimes n) ∧
      (registeredTimes n).busy = true ∧ (entriesOf (registeredTimes n).tlv).length = n := by
  induction n with
  | zero => exact ⟨.initial start_initial, rfl, rfl⟩
  | succ n ih =>
    obtain ⟨hreach, hbusy, hcount⟩ := ih (Nat.le_of_succ_le hn)
    have hkept := kept_inductive.reachable hreach
    have hroom : RoomLeft (registeredTimes n).tlv true := by
      unfold RoomLeft
      cases hs : (registeredTimes n).tlv.slot with
      | none => rfl
      | some list =>
        rw [entriesOf_some hs] at hcount
        exact ⟨hcount ▸ hn, fun _ => rfl⟩
    have hguard : roomLeft (registeredTimes n) (.register 0x4000 0 true) := hroom
    have hstep : ReachableUnder exitSystem roomLeft (registeredTimes (n + 1)) :=
      hreach.step ⟨hkept.sound, hbusy⟩ hguard
    obtain ⟨u, list, hu, hputs, hentries, -⟩ := atexit_appends hkept.ready hkept.doubled hroom
      ⟨(registeredTimes n).registered.length, 0x4000, 0⟩
    have hnext : registeredTimes (n + 1) = { registeredTimes n with
        tlv := u
        registered := (registeredTimes n).registered ++
          [⟨(registeredTimes n).registered.length, 0x4000, 0⟩] } := by
      simp only [registeredTimes, next, hu]
    refine ⟨hstep, ?_, ?_⟩
    · rw [hnext]
      exact hbusy
    · rw [hnext]
      change (entriesOf u).length = n + 1
      rw [entriesOf_some hputs.slot, hentries, List.length_append, hcount]
      rfl

theorem registeredTimes_overrun {n : ℕ} (hn : n = 2 ^ 31) :
    Reachable exitSystem (registeredTimes n) ∧
      Enabled (registeredTimes n) (.register 0x4000 0 true) ∧
      (next (registeredTimes n) (.register 0x4000 0 true)).faulted = true := by
  obtain ⟨hreach, hbusy, hcount⟩ := registeredTimes_reachable (Nat.le_of_eq hn)
  have hkept := kept_inductive.reachable hreach
  have hroom : ¬ RoomLeft (registeredTimes n).tlv true := by
    intro hroom
    unfold RoomLeft at hroom
    cases hs : (registeredTimes n).tlv.slot with
    | none =>
      rw [entriesOf_none hs, List.length_nil] at hcount
      exact absurd (hcount.trans hn) (by decide)
    | some list =>
      rw [hs] at hroom
      rw [entriesOf_some hs] at hcount
      exact Nat.lt_irrefl _ (hn ▸ hcount ▸ hroom.1)
  refine ⟨hreach.reachable, ⟨hkept.sound, hbusy⟩, ?_⟩
  simp only [next, atexit_none hkept.doubled hroom]

/-- The terminator after 2^31 of them is written past a block without entries. -/
theorem doubling_wraps :
    Reachable exitSystem (registeredTimes (2 ^ 31)) ∧
      Enabled (registeredTimes (2 ^ 31)) (.register 0x4000 0 true) ∧
      (next (registeredTimes (2 ^ 31)) (.register 0x4000 0 true)).faulted = true :=
  registeredTimes_overrun rfl

end TlvExit

import LibSystemCall.TlvImages
import LibSystemCall.TlvTemplate
import Mathlib.Algebra.Order.Ring.Nat

/-! # Addresses of thread-local variables

`z_pthread_tlv_get_addr` in all threads. Between its steps run the initializers of the images
and everything else; memory may be written anywhere at any time. -/
namespace TlvAddress

open GuardedSystem TsdKeys ByteMemory MachImage TlvTemplate
open TlvImages (Descriptor ImageInfo zPthreadTlvGetImageForKey)

structure Loader where
  liveImages : List ImageInfo
  commands : BitVec 64 → List LoadCommand

def Loader.imageForKey (L : Loader) (key : ℕ) : Option Image :=
  (zPthreadTlvGetImageForKey L.liveImages key).map fun mh => ⟨mh, L.commands mh⟩

variable {τ : Type*}

/-- A call in which an initializer runs; `pointers` are still to be called. -/
structure Frame where
  descriptor : Descriptor
  buffer : BitVec 64
  pointers : List (BitVec 64)

inductive Action (τ : Type*) where
  | allocated (self : τ) (key : ℕ) (buffer : BitVec 64)
  | initializer (self : τ) (key : ℕ) (pointer : BitVec 64) (func : ℕ)
  | returned (self : τ) (d : Descriptor) (address : BitVec 64)

/-- The innermost call comes first. -/
structure State (τ : Type*) where
  mem : Memory
  tsd : TsdKeys.State τ (BitVec 64)
  frames : τ → List Frame
  log : List (Action τ)

inductive Event (τ : Type*) where
  | getAddr (self : τ) (d : Descriptor) (block : BitVec 64)
  | ret (self : τ)
  | write (a : ℕ) (bytes : List UInt8)
  | keys (event : TsdKeys.Event τ (BitVec 64))

def State.record (s : State τ) (a : Action τ) : State τ := { s with log := s.log ++ [a] }

variable [DecidableEq τ]

def State.setFrames (s : State τ) (self : τ) (frames : List Frame) : State τ :=
  { s with frames := Function.update s.frames self frames }

/-- The loops of the second pass up to the next call, or the return. -/
def initializerLoop (s : State τ) (self : τ) (f : Frame) (rest : List Frame) : State τ :=
  match f.pointers with
  | [] => (s.setFrames self rest).record (.returned self f.descriptor
      (f.buffer + f.descriptor.offset))
  | pointer :: pointers =>
    (s.setFrames self ({ f with pointers := pointers } :: rest)).record
      (.initializer self f.descriptor.key pointer (leValue (load s.mem pointer.toNat 8)))

/-- `buffer` is the block that `z_malloc` returns. -/
def zPthreadTlvAllocateAndInitializeForKey (L : Loader) (s : State τ) (self : τ) (d : Descriptor)
    (buffer : BitVec 64) : State τ :=
  match L.imageForKey d.key with
  | none => s.record (.returned self d d.offset)
  | some image =>
    let t := (firstPass image).1
    if t.size = 0 then s.record (.returned self d d.offset)
    else
      let n := t.size.toNat
      let zeroed := store s.mem buffer.toNat (List.replicate n 0)
      let s := { s with
        mem := zMemcpy zeroed buffer.toNat t.start.toNat n
        tsd := (zPthreadSetspecific s.tsd self d.key (some buffer)).1 }
      initializerLoop (s.record (.allocated self d.key buffer)) self
        ⟨d, buffer, secondPass image⟩ (s.frames self)

def zPthreadTlvGetAddr (L : Loader) (s : State τ) (self : τ) (d : Descriptor)
    (block : BitVec 64) : State τ :=
  match zPthreadGetspecific s.tsd self d.key with
  | some val => s.record (.returned self d (val + d.offset))
  | none => zPthreadTlvAllocateAndInitializeForKey L s self d block

def next (L : Loader) (s : State τ) : Event τ → State τ
  | .getAddr self d block => zPthreadTlvGetAddr L s self d block
  | .ret self =>
    match s.frames self with
    | [] => s
    | f :: rest => initializerLoop s self f rest
  | .write a bytes => { s with mem := store s.mem a bytes }
  | .keys event => { s with tsd := TsdKeys.next s.tsd event }

structure Fresh (t : Template) (block : BitVec 64) : Prop where
  notNull : block ≠ 0
  fits : block.toNat + t.size.toNat ≤ 2 ^ 64
  apart : block.toNat + t.size.toNat ≤ t.start.toNat ∨ t.start.toNat + t.size.toNat ≤ block.toNat

/-- The value and the life of `key` are left to the code for thread-local variables and to the
cleanup of threads. -/
def Enabled (L : Loader) (key : ℕ) (s : State τ) : Event τ → Prop
  | .getAddr self d block => zPthreadGetspecific s.tsd self d.key = none →
    ∀ image, L.imageForKey d.key = some image → Fresh (firstPass image).1 block
  | .ret self => s.frames self ≠ []
  | .write _ _ => True
  | .keys (.delete k) => k ≠ key
  | .keys (.setspecific _ k _) => k ≠ key
  | .keys _ => True

structure Initial (key : ℕ) (s : State τ) : Prop where
  dynamic : Dynamic key
  live : Live s.tsd key
  unset : ∀ t, (s.tsd.thread t).tsd key = none
  frames : ∀ t, s.frames t = []
  log : s.log = []

def addressSystem (L : Loader) (key : ℕ) : System (State τ) (Event τ) :=
  ⟨Initial key, Enabled L key, next L⟩

def beforeCleanup (self : τ) (_ : State τ) : Event τ → Prop
  | .keys (.cleanupKey t _) => t ≠ self
  | _ => True

def allocations (self : τ) (key : ℕ) (log : List (Action τ)) : List (BitVec 64) :=
  log.filterMap fun
    | .allocated t k buffer => if t = self ∧ k = key then some buffer else none
    | _ => none

def calledPointers (self : τ) (key : ℕ) (log : List (Action τ)) : List (BitVec 64) :=
  log.filterMap fun
    | .initializer t k pointer _ => if t = self ∧ k = key then some pointer else none
    | _ => none

def returns (self : τ) (key : ℕ) (log : List (Action τ)) : List (BitVec 64 × BitVec 64) :=
  log.filterMap fun
    | .returned t d address => if t = self ∧ d.key = key then some (d.offset, address) else none
    | _ => none

structure View where
  slot : Option (BitVec 64)
  allocated : List (BitVec 64)
  called : List (BitVec 64)
  returned : List (BitVec 64 × BitVec 64)
  frames : List Frame

def State.view (s : State τ) (self : τ) (key : ℕ) : View where
  slot := (s.tsd.thread self).tsd key
  allocated := allocations self key s.log
  called := calledPointers self key s.log
  returned := returns self key s.log
  frames := (s.frames self).filter (·.descriptor.key = key)

/-- Nothing has happened, or one buffer is there: the pointers left to the one call that runs
the initializers, if there still is one, are those not called. -/
inductive View.Ok (pointers : List (BitVec 64)) : View → Prop where
  | untouched : View.Ok pointers ⟨none, [], [], [], []⟩
  | running {base : BitVec 64} {called : List (BitVec 64)} {returned : List (BitVec 64 × BitVec 64)}
      {f : Frame} (hreturned : ∀ r ∈ returned, r.2 = base + r.1) (hbuffer : f.buffer = base)
      (hcalled : called ++ f.pointers = pointers) :
      View.Ok pointers ⟨some base, [base], called, returned, [f]⟩
  | ready {base : BitVec 64} {returned : List (BitVec 64 × BitVec 64)}
      (hreturned : ∀ r ∈ returned, r.2 = base + r.1) :
      View.Ok pointers ⟨some base, [base], pointers, returned, []⟩

variable {L : Loader} {s : State τ} {self t : τ} {key : ℕ}

def Action.Concerns (self : τ) (key : ℕ) : Action τ → Prop
  | .allocated t k _ => t = self ∧ k = key
  | .initializer t k _ _ => t = self ∧ k = key
  | .returned t d _ => t = self ∧ d.key = key

theorem view_record {a : Action τ} (h : ¬ a.Concerns self key) :
    (s.record a).view self key = s.view self key := by
  have hkept : allocations self key (s.log ++ [a]) = allocations self key s.log ∧
      calledPointers self key (s.log ++ [a]) = calledPointers self key s.log ∧
      returns self key (s.log ++ [a]) = returns self key s.log := by
    unfold allocations calledPointers returns
    rw [List.filterMap_append, List.filterMap_append, List.filterMap_append]
    cases a with
    | allocated t k b =>
      have hno : ¬ (t = self ∧ k = key) := h
      simp [hno]
    | initializer t k p f =>
      have hno : ¬ (t = self ∧ k = key) := h
      simp [hno]
    | returned t d a =>
      have hno : ¬ (t = self ∧ d.key = key) := h
      simp [hno]
  simp only [State.view, State.record, hkept]

theorem view_allocated (b : BitVec 64) : (s.record (.allocated self key b)).view self key =
    { s.view self key with allocated := (s.view self key).allocated ++ [b] } := by
  simp [State.view, State.record, allocations, calledPointers, returns]

theorem view_initializer (p : BitVec 64) (f : ℕ) :
    (s.record (.initializer self key p f)).view self key =
      { s.view self key with called := (s.view self key).called ++ [p] } := by
  simp [State.view, State.record, allocations, calledPointers, returns]

theorem view_returned {d : Descriptor} (hd : d.key = key) (a : BitVec 64) :
    (s.record (.returned self d a)).view self key =
      { s.view self key with returned := (s.view self key).returned ++ [(d.offset, a)] } := by
  simp [State.view, State.record, allocations, calledPointers, returns, hd]

theorem view_setFrames (frames : List Frame) : (s.setFrames t frames).view self key =
    if t = self then
      { s.view self key with frames := frames.filter (·.descriptor.key = key) }
    else s.view self key := by
  by_cases ht : t = self
  · subst ht
    simp [State.view, State.setFrames]
  · simp [State.view, State.setFrames, ht, Function.update_of_ne (Ne.symm ht)]

theorem view_loop_other {f : Frame} {rest : List Frame}
    (h : ¬ (t = self ∧ f.descriptor.key = key))
    (hrest : t = self → rest.filter (·.descriptor.key = key) = (s.view self key).frames) :
    (initializerLoop s t f rest).view self key = s.view self key := by
  unfold initializerLoop
  split
  · rw [view_record (a := .returned t f.descriptor _) h, view_setFrames]
    split
    · next ht => rw [hrest ht]
    · rfl
  · next pointer pointers _ =>
    rw [view_record (a := .initializer t f.descriptor.key _ _) h, view_setFrames]
    split
    · next ht =>
      have hf : ¬ f.descriptor.key = key := fun hf => h ⟨ht, hf⟩
      rw [List.filter_cons_of_neg (by simpa using hf), hrest ht]
    · rfl

theorem ok_loop {f : Frame} {rest : List Frame} {pointers called : List (BitVec 64)}
    {base : BitVec 64} {returned : List (BitVec 64 × BitVec 64)} {frames : List Frame}
    (hf : f.descriptor.key = key)
    (hview : s.view self key = ⟨some base, [base], called, returned, frames⟩)
    (hreturned : ∀ r ∈ returned, r.2 = base + r.1) (hbuffer : f.buffer = base)
    (hcalled : called ++ f.pointers = pointers)
    (hrest : rest.filter (·.descriptor.key = key) = []) :
    View.Ok pointers ((initializerLoop s self f rest).view self key) := by
  unfold initializerLoop
  split
  · next hnil =>
    rw [view_returned hf, view_setFrames, if_pos rfl, hview, hrest]
    rw [hnil, List.append_nil] at hcalled
    subst hcalled
    refine .ready fun r hr => ?_
    rcases List.mem_append.mp hr with hr | hr
    · exact hreturned r hr
    · rw [List.mem_singleton.mp hr, hbuffer]
  · next pointer left hcons =>
    rw [hf, view_initializer, view_setFrames, if_pos rfl, hview,
      List.filter_cons_of_pos (by simpa using hf), hrest]
    refine .running hreturned hbuffer ?_
    rw [List.append_assoc, ← hcalled, hcons]
    rfl

theorem setspecific_tsd (u : TsdKeys.State τ (BitVec 64)) (k : ℕ) (v : Option (BitVec 64)) :
    ((zPthreadSetspecific u t k v).1.thread self).tsd key =
      if Settable u k ∧ t = self ∧ k = key then v else (u.thread self).tsd key := by
  rw [setspecific_eq]
  by_cases hset : Settable u k
  · rw [if_pos hset]
    simp only [stored, setThread_tsd]
    by_cases ht : self = t
    · subst ht
      by_cases hk : key = k
      · simp [hset, hk]
      · simp [hk, Ne.symm hk]
    · rw [if_neg ht, if_neg fun h => ht h.2.1.symm]
  · rw [if_neg hset, if_neg fun h => hset h.1]

theorem next_slot {u : TsdKeys.State τ (BitVec 64)} {e : TsdKeys.Event τ (BitVec 64)}
    (hset : ∀ v, e ≠ .setspecific self key v) (hclean : ∀ k, e ≠ .cleanupKey self k) :
    ((TsdKeys.next u e).thread self).tsd key = (u.thread self).tsd key := by
  cases e with
  | create destructor => rw [TsdKeys.next, create_thread]
  | delete k =>
    rw [TsdKeys.next]
    rcases delete_cases u k with ⟨_, _, hd⟩ | ⟨_, hd⟩
    all_goals rw [hd]
  | getspecific t k => rfl
  | setspecific t k v =>
    rw [TsdKeys.next, setspecific_tsd, if_neg]
    rintro ⟨_, rfl, rfl⟩
    exact hset v rfl
  | cleanupKey t k =>
    have ht : self ≠ t := fun heq => hclean k (heq ▸ rfl)
    rw [TsdKeys.next]
    rcases cleanupKey_cases u t k with ⟨v, _, _, hc⟩ | ⟨_, hc⟩
    · rw [hc]
      simp only [cleared, setThread_tsd, if_neg ht]
    · rw [hc]
  | cleanupEnd t =>
    simp only [TsdKeys.next, resetMax, setThread_tsd]
    split
    · next ht => rw [ht]
    · rfl

theorem next_live {u : TsdKeys.State τ (BitVec 64)} {e : TsdKeys.Event τ (BitVec 64)}
    (hk : Dynamic key) (hl : Live u key) (he : e ≠ .delete key) : Live (TsdKeys.next u e) key := by
  rcases next_keys u e hk with hsame | ⟨_, _, hdead, _⟩ | ⟨hdel, _⟩
  · rw [Live, hsame]
    exact hl
  · exact absurd hl hdead
  · exact absurd hdel he

structure Kept (owner : τ) (key : ℕ) (pointers : List (BitVec 64)) (s : State τ) : Prop where
  live : Live s.tsd key
  view : View.Ok pointers (s.view owner key)

theorem loop_tsd (s : State τ) (t : τ) (f : Frame) (rest : List Frame) :
    (initializerLoop s t f rest).tsd = s.tsd ∧ (initializerLoop s t f rest).mem = s.mem := by
  unfold initializerLoop
  split
  · exact ⟨rfl, rfl⟩
  · exact ⟨rfl, rfl⟩

def publish (s : State τ) (t : τ) (d : Descriptor) (image : Image) (buffer : BitVec 64) :
    State τ :=
  let template := (firstPass image).1
  let n := template.size.toNat
  { s with
    mem := zMemcpy (store s.mem buffer.toNat (List.replicate n 0)) buffer.toNat
      template.start.toNat n
    tsd := (zPthreadSetspecific s.tsd t d.key (some buffer)).1 }

theorem allocate_eq {d : Descriptor} {image : Image} (himage : L.imageForKey d.key = some image)
    (hsize : (firstPass image).1.size ≠ 0) (b : BitVec 64) :
    zPthreadTlvAllocateAndInitializeForKey L s t d b =
      initializerLoop ((publish s t d image b).record (.allocated t d.key b)) t
        ⟨d, b, secondPass image⟩ (s.frames t) := by
  simp only [zPthreadTlvAllocateAndInitializeForKey, himage, if_neg hsize]
  rfl

theorem publish_view_other {d : Descriptor} {image : Image} {b : BitVec 64}
    (h : ¬ (t = self ∧ d.key = key)) :
    (publish s t d image b).view self key = s.view self key := by
  have hslot : ((publish s t d image b).tsd.thread self).tsd key =
      (s.tsd.thread self).tsd key := by
    rw [publish, setspecific_tsd, if_neg fun hset => h hset.2]
  rw [State.view, State.view, hslot]
  rfl

theorem publish_view {d : Descriptor} {image : Image} {b : BitVec 64} (hd : d.key = key)
    (hset : Settable s.tsd key) : (publish s self d image b).view self key =
      { s.view self key with slot := some b } := by
  have hslot : ((publish s self d image b).tsd.thread self).tsd key = some b := by
    rw [publish, setspecific_tsd, if_pos ⟨hd ▸ hset, rfl, hd⟩]
  rw [State.view, State.view, hslot]
  rfl

theorem publish_load {d : Descriptor} {image : Image} {b : BitVec 64}
    (hfresh : Fresh (firstPass image).1 b) :
    load (publish s t d image b).mem b.toNat (firstPass image).1.size.toNat =
      load s.mem (firstPass image).1.start.toNat (firstPass image).1.size.toNat := by
  have hapart := hfresh.apart
  unfold publish
  simp only
  rw [zMemcpy_move hapart]
  apply load_congr
  intro i hi
  rw [moveBytes_apply, if_pos (by omega), Nat.add_sub_cancel_left]
  apply store_outside
  rw [List.length_replicate]
  omega

variable {image : Image} {seg : Segment} {first last : Section}

theorem View.Ok.eq_untouched {pointers : List (BitVec 64)} {v : View} (h : View.Ok pointers v)
    (hslot : v.slot = none) : v = ⟨none, [], [], [], []⟩ := by
  cases h with
  | untouched => rfl
  | running => cases hslot
  | ready => cases hslot

theorem Kept.allocate {pointers : List (BitVec 64)} (h : Kept self key pointers s)
    (hk : Dynamic key) (himage : L.imageForKey key = some image)
    (hsize : (firstPass image).1.size ≠ 0) (hpointers : secondPass image = pointers)
    {d : Descriptor} (hnone : zPthreadGetspecific s.tsd t d.key = none) (b : BitVec 64) :
    View.Ok pointers
      ((zPthreadTlvAllocateAndInitializeForKey L s t d b).view self key) := by
  have hview := h.view
  by_cases hmine : t = self ∧ d.key = key
  · obtain ⟨rfl, hd⟩ := hmine
    have hslot : (s.view t key).slot = none := hd ▸ hnone
    have huntouched := hview.eq_untouched hslot
    have hset : Settable s.tsd key := ⟨Nat.le_trans (by decide) hk.1, hk.2, .inr h.live⟩
    rw [allocate_eq (hd ▸ himage) hsize]
    have hpublished : ((publish s t d image b).record (.allocated t d.key b)).view t key =
        ⟨some b, [b], [], [], []⟩ := by
      rw [hd, view_allocated, publish_view hd hset, huntouched]
      rfl
    have hframes : (s.view t key).frames = [] := by rw [huntouched]
    exact ok_loop hd hpublished (by simp) rfl hpointers hframes
  · cases hfound : L.imageForKey d.key with
    | none =>
      simp only [zPthreadTlvAllocateAndInitializeForKey, hfound]
      rw [view_record (a := .returned t d _) hmine]
      exact hview
    | some other =>
      by_cases hzero : (firstPass other).1.size = 0
      · simp only [zPthreadTlvAllocateAndInitializeForKey, hfound, if_pos hzero]
        rw [view_record (a := .returned t d _) hmine]
        exact hview
      · have hrecord : ((publish s t d other b).record (.allocated t d.key b)).view self key =
            s.view self key := by
          rw [view_record (a := .allocated t d.key b) hmine, publish_view_other hmine]
        rw [allocate_eq hfound hzero, view_loop_other hmine, hrecord]
        · exact hview
        · rintro rfl
          rw [hrecord]
          rfl

theorem Kept.getAddr {pointers : List (BitVec 64)} (h : Kept self key pointers s)
    (hk : Dynamic key) (himage : L.imageForKey key = some image)
    (hsize : (firstPass image).1.size ≠ 0) (hpointers : secondPass image = pointers)
    (d : Descriptor) (b : BitVec 64) :
    View.Ok pointers ((zPthreadTlvGetAddr L s t d b).view self key) := by
  unfold zPthreadTlvGetAddr
  cases hval : zPthreadGetspecific s.tsd t d.key with
  | none => exact h.allocate hk himage hsize hpointers hval b
  | some val =>
    have hview := h.view
    by_cases hmine : t = self ∧ d.key = key
    · obtain ⟨rfl, hd⟩ := hmine
      have hslot : (s.view t key).slot = some val := hd ▸ hval
      simp only
      rw [view_returned hd]
      have hlast : ∀ {base : BitVec 64} {rs : List (BitVec 64 × BitVec 64)}, val = base →
          (∀ r ∈ rs, r.2 = base + r.1) →
          ∀ r ∈ rs ++ [(d.offset, val + d.offset)], r.2 = base + r.1 := by
        intro base rs hbase hrs r hr
        rcases List.mem_append.mp hr with hr | hr
        · exact hrs r hr
        · rw [List.mem_singleton.mp hr, hbase]
      generalize s.view t key = v at hview hslot ⊢
      cases hview with
      | untouched => cases hslot
      | running hreturned hbuffer hcalled =>
        exact .running (hlast (Option.some.inj hslot).symm hreturned) hbuffer hcalled
      | ready hreturned => exact .ready (hlast (Option.some.inj hslot).symm hreturned)
    · simp only
      rw [view_record (a := .returned t d _) hmine]
      exact hview

theorem Kept.ret {pointers : List (BitVec 64)} (h : Kept self key pointers s) {f : Frame}
    {rest : List Frame} (hframes : s.frames t = f :: rest) :
    View.Ok pointers ((initializerLoop s t f rest).view self key) := by
  have hview := h.view
  by_cases hmine : t = self ∧ f.descriptor.key = key
  · obtain ⟨rfl, hf⟩ := hmine
    have hmem : (s.view t key).frames = f :: rest.filter (·.descriptor.key = key) := by
      change (s.frames t).filter _ = _
      rw [hframes, List.filter_cons_of_pos (by simpa using hf)]
    generalize hv : s.view t key = v at hview hmem
    cases hview with
    | untouched => cases hmem
    | ready => cases hmem
    | running hreturned hbuffer hcalled =>
      obtain ⟨rfl, hrest⟩ := List.cons.inj hmem
      exact ok_loop hf hv hreturned hbuffer hcalled hrest.symm
  · rw [view_loop_other hmine]
    · exact hview
    · rintro rfl
      change _ = (s.frames t).filter _
      have hf : ¬ f.descriptor.key = key := fun hf => hmine ⟨rfl, hf⟩
      rw [hframes, List.filter_cons_of_neg (by simpa using hf)]

theorem getAddr_tsd (s : State τ) (d : Descriptor) (b : BitVec 64) :
    (zPthreadTlvGetAddr L s t d b).tsd = s.tsd ∨
      (zPthreadTlvGetAddr L s t d b).tsd = TsdKeys.next s.tsd (.setspecific t d.key (some b)) := by
  unfold zPthreadTlvGetAddr
  cases zPthreadGetspecific s.tsd t d.key with
  | some val => exact .inl rfl
  | none =>
    unfold zPthreadTlvAllocateAndInitializeForKey
    cases hfound : L.imageForKey d.key with
    | none => exact .inl rfl
    | some image =>
      by_cases hzero : (firstPass image).1.size = 0
      · simp only [if_pos hzero]
        exact .inl rfl
      · simp only [if_neg hzero]
        exact .inr (loop_tsd _ _ _ _).1

theorem kept_inductive (hk : Dynamic key) (himage : L.imageForKey key = some image)
    (hsize : (firstPass image).1.size ≠ 0) : Inductive (addressSystem L key)
      (beforeCleanup self) (Kept self key (secondPass image)) where
  initial s hs := by
    refine ⟨hs.live, ?_⟩
    have hview : s.view self key = ⟨none, [], [], [], []⟩ := by
      rw [State.view, hs.unset, hs.log, hs.frames]
      rfl
    rw [hview]
    exact .untouched
  step s e h he hg := by
    cases e with
    | getAddr t d b =>
      refine ⟨?_, h.getAddr hk himage hsize rfl d b⟩
      rcases getAddr_tsd (L := L) (t := t) s d b with hsame | hset
      · exact (congrArg (Live · key) hsame).mpr h.live
      · exact (congrArg (Live · key) hset).mpr (next_live hk h.live (by simp))
    | ret t =>
      change Kept self key _ (match s.frames t with | [] => s | f :: rest => _)
      cases hframes : s.frames t with
      | nil => exact absurd hframes he
      | cons f rest =>
        refine ⟨?_, h.ret hframes⟩
        exact (congrArg (Live · key) (loop_tsd s t f rest).1).mpr h.live
    | write a bytes => exact ⟨h.live, h.view⟩
    | keys e =>
      have hdel : e ≠ .delete key := by
        rintro rfl
        exact he rfl
      refine ⟨next_live hk h.live hdel, ?_⟩
      have hslot : ((TsdKeys.next s.tsd e).thread self).tsd key =
          (s.tsd.thread self).tsd key := by
        refine next_slot ?_ ?_
        · rintro v rfl
          exact he rfl
        · rintro k rfl
          exact hg rfl
      have hview : (next L s (.keys e)).view self key = s.view self key := by
        rw [State.view, State.view, ← hslot]
        rfl
      change View.Ok _ ((next L s (.keys e)).view self key)
      rw [hview]
      exact h.view

def pointersLeft (s : State τ) (self : τ) : ℕ :=
  ((s.frames self).map (·.pointers.length + 1)).sum

theorem ret_pointers {f : Frame} {rest : List Frame} (hframes : s.frames self = f :: rest) :
    pointersLeft (next L s (.ret self)) self < pointersLeft s self := by
  have hnext : next L s (.ret self) = initializerLoop s self f rest := by
    rw [next, hframes]
  have hleft : ∀ (frames : List Frame) (a : Action τ), pointersLeft ((s.setFrames self
      frames).record a) self = (frames.map (·.pointers.length + 1)).sum := by
    intro frames a
    change ((Function.update s.frames self frames self).map _).sum = _
    rw [Function.update_self]
  rw [hnext, pointersLeft.eq_def s, hframes, List.map_cons, List.sum_cons, initializerLoop]
  split
  · rw [hleft]
    omega
  · next pointer pointers hcons =>
    rw [hleft, List.map_cons, List.sum_cons, hcons, List.length_cons]
    exact Nat.add_lt_add_right (Nat.lt_succ_self _) _

theorem calls_return (s : State τ) (self : τ) : ∃ es,
    ValidTrace (addressSystem L key) (beforeCleanup self) s es ∧ (∀ e ∈ es, e = .ret self) ∧
      (runTrace (addressSystem L key) s es).frames self = [] := by
  induction hn : pointersLeft s self using Nat.strongRecOn generalizing s with
  | _ n ih =>
    cases hframes : s.frames self with
    | nil => exact ⟨[], trivial, by simp, hframes⟩
    | cons f rest =>
      have hne : s.frames self ≠ [] := by
        rw [hframes]
        exact List.cons_ne_nil _ _
      obtain ⟨es, hvalid, hes, hend⟩ := ih _ (hn ▸ ret_pointers (L := L) hframes) _ rfl
      refine ⟨.ret self :: es, ⟨⟨hne, trivial⟩, hvalid⟩, fun e he => ?_, hend⟩
      rcases List.mem_cons.mp he with rfl | he
      · rfl
      · exact hes e he

theorem mem_returns {d : Descriptor} {address : BitVec 64} {log : List (Action τ)}
    (hmem : .returned self d address ∈ log) (hd : d.key = key) :
    (d.offset, address) ∈ returns self key log :=
  List.mem_filterMap.mpr ⟨_, hmem, if_pos ⟨rfl, hd⟩⟩

theorem loop_allocations (s : State τ) (f : Frame) (rest : List Frame) :
    allocations self key (initializerLoop s t f rest).log = allocations self key s.log := by
  have hlog : ∃ a, (initializerLoop s t f rest).log = s.log ++ [a] ∧
      ∀ t k b, a ≠ .allocated t k b := by
    unfold initializerLoop
    split
    · exact ⟨_, rfl, by simp⟩
    · exact ⟨_, rfl, by simp⟩
  obtain ⟨a, ha, hno⟩ := hlog
  rw [ha, allocations, List.filterMap_append]
  cases a with
  | allocated t k b => exact absurd rfl (hno t k b)
  | initializer => exact List.append_nil _
  | returned => exact List.append_nil _

theorem allocations_published (s : State τ) (t : τ) (d : Descriptor) (image : Image)
    (b : BitVec 64) :
    allocations self key ((publish s t d image b).record (.allocated t d.key b)).log =
      allocations self key s.log ++ if t = self ∧ d.key = key then [b] else [] := by
  rw [State.record, allocations, List.filterMap_append]
  split
  · next hmine => simp [hmine, publish, allocations]
  · next hmine => simp [hmine, publish, allocations]

theorem Kept.allocations_step (hk : Dynamic key) (himage : L.imageForKey key = some image)
    (hsize : (firstPass image).1.size ≠ 0) (h : Kept self key (secondPass image) s)
    {e : Event τ} (he : Enabled L key s e) :
    allocations self key (next L s e).log = allocations self key s.log ∨
      ∃ base, allocations self key s.log = [] ∧ calledPointers self key s.log = [] ∧
        allocations self key (next L s e).log = [base] ∧
        load (next L s e).mem base.toNat (firstPass image).1.size.toNat =
          load s.mem (firstPass image).1.start.toNat (firstPass image).1.size.toNat := by
  have hreturned : ∀ (t : τ) (d : Descriptor) (a : BitVec 64),
      allocations self key (s.record (.returned t d a)).log = allocations self key s.log := by
    intro t d a
    rw [State.record, allocations, List.filterMap_append]
    exact List.append_nil _
  cases e with
  | write a bytes => exact .inl rfl
  | keys e => exact .inl rfl
  | ret t =>
    left
    change allocations self key (match s.frames t with | [] => s | f :: rest => _).log = _
    cases s.frames t with
    | nil => rfl
    | cons f rest => exact loop_allocations s f rest
  | getAddr t d b =>
    simp only [next, zPthreadTlvGetAddr]
    cases hval : zPthreadGetspecific s.tsd t d.key with
    | some val => exact .inl (hreturned t d _)
    | none =>
      cases hfound : L.imageForKey d.key with
      | none =>
        left
        simp only [zPthreadTlvAllocateAndInitializeForKey, hfound]
        exact hreturned t d _
      | some other =>
        by_cases hzero : (firstPass other).1.size = 0
        · left
          simp only [zPthreadTlvAllocateAndInitializeForKey, hfound, if_pos hzero]
          exact hreturned t d _
        · rw [allocate_eq hfound hzero, loop_allocations, allocations_published]
          by_cases hmine : t = self ∧ d.key = key
          · obtain ⟨rfl, rfl⟩ := hmine
            obtain rfl : other = image := Option.some.inj (hfound.symm.trans himage)
            have hslot : (s.view t d.key).slot = none := hval
            have huntouched := h.view.eq_untouched hslot
            have hnone : allocations t d.key s.log = [] := congrArg View.allocated huntouched
            have hcalled : calledPointers t d.key s.log = [] := congrArg View.called huntouched
            refine .inr ⟨b, hnone, hcalled, by rw [hnone, if_pos ⟨rfl, rfl⟩]; rfl, ?_⟩
            rw [(loop_tsd _ _ _ _).2]
            exact publish_load (t := t) (d := d) (he hval other hfound)
          · rw [if_neg hmine, List.append_nil]
            exact .inl rfl

/-- One buffer, the addresses within it, and the initializers, for every thread that is not
cleaned up. -/
theorem tlv_address (himage : L.imageForKey key = some image)
    (htemplate : TemplateAt image seg first last) {s : State τ}
    (h : ReachableUnder (addressSystem L key) (beforeCleanup self) s) :
    let slide := image.mh - seg.vmaddr
    let buffers := allocations self key s.log
    buffers.length ≤ 1 ∧
      (∀ d address, .returned self d address ∈ s.log → d.key = key →
        ∃ base, buffers = [base] ∧ address = base + d.offset) ∧
      (calledPointers self key s.log <+: initializers image slide ∧
        (buffers ≠ [] → (∀ f ∈ s.frames self, f.descriptor.key ≠ key) →
          calledPointers self key s.log = initializers image slide)) ∧
      (∀ e, Enabled L key s e → allocations self key (next L s e).log = buffers ∨
        ∃ base, buffers = [] ∧ calledPointers self key s.log = [] ∧
          allocations self key (next L s e).log = [base] ∧
          load (next L s e).mem base.toNat (extent first last) =
            load s.mem (first.addr + slide).toNat (extent first last)) ∧
      ∃ es, ValidTrace (addressSystem L key) (beforeCleanup self) s es ∧
        (∀ e ∈ es, e = .ret self) ∧ (runTrace (addressSystem L key) s es).frames self = [] := by
  intro slide buffers
  obtain ⟨s₀, h₀, -⟩ := id h
  have hk := h₀.dynamic
  have hkept := (kept_inductive hk himage htemplate.size_ne).reachable h
  have hview := hkept.view
  rw [htemplate.pointers] at hview
  have hstep : ∀ e, Enabled L key s e → allocations self key (next L s e).log = buffers ∨
      ∃ base, buffers = [] ∧ calledPointers self key s.log = [] ∧
        allocations self key (next L s e).log = [base] ∧
        load (next L s e).mem base.toNat (extent first last) =
          load s.mem (first.addr + slide).toNat (extent first last) := by
    intro e he
    rw [← htemplate.size, ← htemplate.pass.1]
    exact hkept.allocations_step hk himage htemplate.size_ne he
  have hreturns : ∀ {d address}, .returned self d address ∈ s.log → d.key = key →
      (d.offset, address) ∈ (s.view self key).returned := fun hmem hd => mem_returns hmem hd
  have hidle : (∀ f ∈ s.frames self, f.descriptor.key ≠ key) → (s.view self key).frames = [] := by
    intro hall
    exact List.filter_eq_nil_iff.mpr fun f hf => by simpa using hall f hf
  change (s.view self key).allocated.length ≤ 1 ∧
    (∀ d address, .returned self d address ∈ s.log → d.key = key →
      ∃ base, (s.view self key).allocated = [base] ∧ address = base + d.offset) ∧
    ((s.view self key).called <+: _ ∧ ((s.view self key).allocated ≠ [] → _ →
      (s.view self key).called = _)) ∧ _
  generalize s.view self key = v at hview hreturns hidle ⊢
  cases hview with
  | untouched =>
    refine ⟨Nat.zero_le _, fun d address hmem hd => ?_, ⟨List.nil_prefix, fun hne => ?_⟩, hstep,
      calls_return s self⟩
    · exact absurd (hreturns hmem hd) (List.not_mem_nil)
    · exact absurd rfl hne
  | running hreturned hbuffer hcalled =>
    refine ⟨Nat.le_refl _, fun d address hmem hd => ?_, ⟨⟨_, hcalled⟩, fun _ hall => ?_⟩, hstep,
      calls_return s self⟩
    · exact ⟨_, rfl, hreturned _ (hreturns hmem hd)⟩
    · exact absurd (hidle hall) (List.cons_ne_nil _ _)
  | ready hreturned =>
    refine ⟨Nat.le_refl _, fun d address hmem hd => ?_, ⟨List.prefix_rfl, fun _ _ => rfl⟩, hstep,
      calls_return s self⟩
    exact ⟨_, rfl, hreturned _ (hreturns hmem hd)⟩

/-! An image with two sections for its template and one initializer. -/

def oneImage : Image :=
  ⟨0x1000, [.other, .segment ⟨0x1000, 0x3000, [⟨0x2000, 8, S_THREAD_LOCAL_REGULAR⟩,
    ⟨0x2008, 8, S_THREAD_LOCAL_ZEROFILL⟩, ⟨0x3000, 8, S_THREAD_LOCAL_INIT_FUNCTION_POINTERS⟩]⟩]⟩

def oneLoader : Loader := ⟨[⟨256, 0x1000⟩], fun _ => oneImage.commands⟩

theorem oneImage_template : TemplateAt oneImage
    ⟨0x1000, 0x3000, [⟨0x2000, 8, S_THREAD_LOCAL_REGULAR⟩,
      ⟨0x2008, 8, S_THREAD_LOCAL_ZEROFILL⟩, ⟨0x3000, 8, S_THREAD_LOCAL_INIT_FUNCTION_POINTERS⟩]⟩
    ⟨0x2000, 8, S_THREAD_LOCAL_REGULAR⟩ ⟨0x2008, 8, S_THREAD_LOCAL_ZEROFILL⟩ where
  backed := ⟨[.other], [], rfl, by decide, fun s hs => by simp at hs⟩
  begins := by decide
  ends := by decide
  ascending := by decide
  bounded := by decide
  nonempty := by decide
  mapped := by decide
  unwrapped := by decide

local instance : TlvTerminators.CodeAddresses := TlvTerminators.placed

/-- The key 256 is live, and nothing has been stored. -/
def loaded : State Unit :=
  ⟨fun _ => 0, ⟨Function.update (fun _ => 0) 256 (~~~TlvTerminators.tlvFree),
    fun _ => ⟨fun _ => none, 0⟩⟩, fun _ => [], []⟩

theorem loaded_initial : Initial 256 loaded :=
  ⟨by decide, by decide, fun _ => rfl, fun _ => rfl, rfl⟩

/-- The initializer asks for the address of a variable, then the call that runs it returns. -/
def touched : State Unit :=
  runTrace (addressSystem oneLoader 256) loaded
    [.getAddr () ⟨TlvTerminators.tlvGetAddr, 256, 8⟩ 0x9000,
      .getAddr () ⟨TlvTerminators.tlvGetAddr, 256, 0⟩ 0, .ret ()]

theorem tlv_address_touched :
    allocations () 256 touched.log = [0x9000] ∧
      returns () 256 touched.log = [(0, 0x9000), (8, 0x9008)] ∧
      calledPointers () 256 touched.log = initializers oneImage 0 := by
  have himage : oneLoader.imageForKey 256 = some oneImage := by decide
  have hreach : ReachableUnder (addressSystem oneLoader 256) (beforeCleanup ()) touched := by
    refine valid_trace_reachable loaded_initial ⟨⟨?_, trivial⟩, ⟨?_, trivial⟩, ⟨?_, trivial⟩,
      trivial⟩
    · intro _ image hfound
      obtain rfl : oneImage = image := Option.some.inj (himage.symm.trans hfound)
      exact ⟨by decide, by decide, by decide⟩
    · intro hnone
      exact nomatch hnone
    · exact List.cons_ne_nil _ _
  have hcontract := tlv_address himage oneImage_template hreach
  exact ⟨by decide, by decide, hcontract.2.2.1.2 (by decide) (fun f hf => nomatch hf)⟩

end TlvAddress

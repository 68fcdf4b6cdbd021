import LibSystemCall.TsdKeys

/-! # Thread-local variables of one thread

The values are those of `TsdKeys`, for the one thread. A buffer is known by the number of its
allocation: `z_pthread_tlv_free` unmaps nothing, so no address is given out twice. -/
namespace TlvTerminators

open TsdKeys

structure Entry where
  termFunc : ℕ
  buffer : ℕ
  offset : ℕ
  deriving DecidableEq

/-- `useCount` is the length of the entries. -/
structure TerminatorList where
  allocCount : ℕ
  entries : List Entry
  deriving DecidableEq

inductive Value where
  | buffer (b : ℕ)
  | terminators (list : TerminatorList)
  | user (v : ℕ)
  deriving DecidableEq

structure Image where
  key : ℕ
  size : ℕ
  deriving DecidableEq

/-- The addresses of the library's routines that are in its data. In the table of keys a null
destructor and the complement of 0 have a meaning of their own. -/
class CodeAddresses where
  tlvFinalize : BitVec 64
  tlvFree : BitVec 64
  tlvGetAddr : BitVec 64
  free_ne_finalize : tlvFree ≠ tlvFinalize
  finalize_ne_null : tlvFinalize ≠ 0#64
  free_ne_null : tlvFree ≠ 0#64
  finalize_kept : ~~~tlvFinalize ≠ 0#64
  free_kept : ~~~tlvFree ≠ 0#64

export CodeAddresses (tlvFinalize tlvFree tlvGetAddr free_ne_finalize finalize_ne_null free_ne_null
  finalize_kept free_kept)

/-- Any other places would do for the runs on fixed inputs. -/
abbrev placed : CodeAddresses :=
  ⟨0x1000, 0x1040, 0x1080, by decide, by decide, by decide, by decide, by decide⟩

structure Tlv where
  tsd : TsdKeys.State Unit Value
  terminatorsKey : ℕ
  images : List Image
  nextBuffer : ℕ

def Tlv.slot (s : Tlv) (key : ℕ) : Option Value := zPthreadGetspecific s.tsd () key

def Tlv.setspecific (s : Tlv) (key : ℕ) (value : Option Value) : Tlv :=
  { s with tsd := (zPthreadSetspecific s.tsd () key value).1 }

def zPthreadTlvGetImageForKey (images : List Image) (key : ℕ) : Option Image :=
  images.find? (·.key = key)

/-- The initializers of the image are user code that runs next. -/
def zPthreadTlvAllocateAndInitializeForKey (s : Tlv) (key : ℕ) : Tlv × Option Value :=
  match zPthreadTlvGetImageForKey s.images key with
  | none => (s, none)
  | some image =>
    if image.size = 0 then (s, none)
    else
      let buffer := Value.buffer s.nextBuffer
      ({ s with nextBuffer := s.nextBuffer + 1 }.setspecific key (some buffer), some buffer)

/-- The value without the offset of the descriptor. -/
def zPthreadTlvGetAddr (s : Tlv) (key : ℕ) : Tlv × Option Value :=
  match s.slot key with
  | some value => (s, some value)
  | none => zPthreadTlvAllocateAndInitializeForKey s key

def zPthreadTlvInitializeDescriptors [CodeAddresses] (s : Tlv) (size : ℕ) : Tlv :=
  match zPthreadKeyCreate s.tsd tlvFree with
  | (tsd, _, key) => { s with tsd := tsd, images := s.images ++ [⟨key.getD 0, size⟩] }

/-- `image` is the size of the thread-local variables, if the image has any. -/
def zPthreadTlvInitializer [CodeAddresses] (s : Tlv) (image : Option ℕ) : Tlv :=
  match zPthreadKeyCreate s.tsd tlvFinalize with
  | (tsd, _, key) =>
    let s := { s with tsd := tsd, terminatorsKey := key.getD s.terminatorsKey }
    match image with
    | none => s
    | some size => zPthreadTlvInitializeDescriptors s size

def Tlv.writeList (s : Tlv) (list : TerminatorList) : Tlv :=
  let t := s.tsd.thread ()
  { s with
    tsd := s.tsd.setThread ()
      { t with tsd := Function.update t.tsd s.terminatorsKey (some (.terminators list)) } }

def zPthreadTlvAtexit (s : Tlv) (entry : Entry) : Tlv :=
  match s.slot s.terminatorsKey with
  | none => s.setspecific s.terminatorsKey (some (.terminators ⟨1, [entry]⟩))
  | some (.terminators list) =>
    if list.entries.length = list.allocCount then
      let list := ⟨list.allocCount * 2 % 2 ^ 32, list.entries⟩
      (s.setspecific s.terminatorsKey (some (.terminators list))).writeList
        ⟨list.allocCount, list.entries ++ [entry]⟩
    else s.writeList ⟨list.allocCount, list.entries ++ [entry]⟩
  | some _ => s

/-! What the operations change: one value, and the entries of static keys. -/

structure Sets (s s' : Tlv) (key : ℕ) (value : Option Value) : Prop where
  slot : ∀ k, s'.slot k = if k = key then value else s.slot k
  keys : ∀ k, s'.tsd.keys k = s.tsd.keys k ∨
    k < pthreadTsdStart ∧ s'.tsd.keys k = ~~~0#64
  terminatorsKey : s'.terminatorsKey = s.terminatorsKey
  images : s'.images = s.images
  nextBuffer : s'.nextBuffer = s.nextBuffer

variable {s : Tlv} {key : ℕ} {value : Option Value}

theorem setspecific_sets (h : Settable s.tsd key) (value : Option Value) :
    Sets s (s.setspecific key value) key value where
  slot k := by
    simp only [Tlv.slot, Tlv.setspecific, setspecific_eq, if_pos h, zPthreadGetspecific, stored,
      setThread_tsd, if_true, Function.update_apply]
  keys k := by
    simp only [Tlv.setspecific, setspecific_eq, if_pos h]
    change (if key < pthreadTsdStart then _ else s.tsd.keys) k = _ ∨ _
    split
    · next hlt =>
      by_cases hk : k = key
      · subst hk
        simp only [stored, State.setThread, if_pos hlt, zPthreadKeySetDestructor]
        split
        · exact .inr ⟨hlt, Function.update_self _ _ _⟩
        · exact .inl rfl
      · exact .inl (setDestructor_of_ne _ _ hk)
    · exact .inl rfl
  terminatorsKey := rfl
  images := rfl
  nextBuffer := rfl

theorem setspecific_of_not (h : ¬ Settable s.tsd key) : s.setspecific key value = s := by
  simp only [Tlv.setspecific, setspecific_eq, if_neg h]

theorem writeList_sets (list : TerminatorList) :
    Sets s (s.writeList list) s.terminatorsKey (some (.terminators list)) where
  slot k := by
    simp only [Tlv.slot, Tlv.writeList, zPthreadGetspecific, setThread_tsd, if_true,
      Function.update_apply]
  keys _ := .inl rfl
  terminatorsKey := rfl
  images := rfl
  nextBuffer := rfl

theorem Sets.trans {s₁ s₂ : Tlv} {w : Option Value} (h : Sets s s₁ key value)
    (h' : Sets s₁ s₂ key w) : Sets s s₂ key w where
  slot k := by
    rw [h'.slot, h.slot]
    split <;> rfl
  keys k := by
    rcases h'.keys k with hk | hk
    · rw [hk]
      exact h.keys k
    · exact .inr hk
  terminatorsKey := h'.terminatorsKey.trans h.terminatorsKey
  images := h'.images.trans h.images
  nextBuffer := h'.nextBuffer.trans h.nextBuffer

theorem cleared_sets (s : Tlv) (key : ℕ) :
    Sets s { s with tsd := cleared s.tsd () key } key none where
  slot k := by
    simp only [Tlv.slot, zPthreadGetspecific, cleared, setThread_tsd, if_true,
      Function.update_apply]
  keys _ := .inl rfl
  terminatorsKey := rfl
  images := rfl
  nextBuffer := rfl

def pendingEntries (s : Tlv) : List Entry :=
  match s.slot s.terminatorsKey with
  | some (.terminators list) => list.entries
  | _ => []

theorem atexit_sets (h : Settable s.tsd s.terminatorsKey)
    (hv : ∀ v, s.slot s.terminatorsKey = some v → ∃ list, v = .terminators list) (entry : Entry) :
    ∃ list, list.entries = pendingEntries s ++ [entry] ∧
      Sets s (zPthreadTlvAtexit s entry) s.terminatorsKey (some (.terminators list)) := by
  unfold zPthreadTlvAtexit pendingEntries
  cases hs : s.slot s.terminatorsKey with
  | none => exact ⟨⟨1, [entry]⟩, rfl, setspecific_sets h _⟩
  | some v =>
    obtain ⟨list, rfl⟩ := hv v hs
    simp only
    split
    · exact ⟨_, rfl, (setspecific_sets h _).trans (writeList_sets _)⟩
    · exact ⟨_, rfl, writeList_sets _⟩

end TlvTerminators

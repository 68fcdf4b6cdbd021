import LibSystemCall.MachImage
import LibSystemCall.TlvTerminators
import Mathlib.Data.List.Induction

/-! # Keys of the images with thread-local variables

`z_pthread_tlv_initialize_descriptors` allocates the key of an image at its first section of
descriptors and ignores a failure. Descriptors are kept by their addresses. -/
namespace TlvImages

open GuardedSystem MachImage TsdKeys
open TlvTerminators (CodeAddresses tlvFree tlvGetAddr free_kept)

structure Descriptor where
  thunk : BitVec 64
  key : ℕ
  offset : BitVec 64
  deriving DecidableEq

structure ImageInfo where
  key : ℕ
  mh : BitVec 64
  deriving DecidableEq

variable {τ V : Type*}

/-- `liveImages` are the used entries of `tlv_live_images`, `allocCount` is none while that is
NULL; `switched` is the image whose loop has written a descriptor last. -/
structure Process (τ V : Type*) where
  tsd : TsdKeys.State τ V
  liveImages : List ImageInfo
  allocCount : Option ℕ
  descriptors : ℕ → Descriptor
  switched : ℕ → Option (BitVec 64)

def zPthreadTlvGetImageForKey (images : List ImageInfo) (key : ℕ) : Option (BitVec 64) :=
  (images.find? (·.key = key)).map (·.mh)

def zPthreadTlvSetKeyForImage (p : Process τ V) (mh : BitVec 64) (key : ℕ) : Process τ V :=
  let allocCount :=
    if p.liveImages.length = p.allocCount.getD 0 then
      match p.allocCount with
      | none => some 8
      | some count => some (2 * count % 2 ^ 32)
    else p.allocCount
  { p with allocCount := allocCount, liveImages := p.liveImages ++ [⟨key, mh⟩] }

/-- `key` of `z_pthread_tlv_initialize_descriptors` in its loops. -/
structure Pass (τ V : Type*) where
  key : ℕ
  process : Process τ V

section

variable [CodeAddresses]

def Pass.allocateKey (pass : Pass τ V) (mh : BitVec 64) : Pass τ V :=
  match zPthreadKeyCreate pass.process.tsd tlvFree with
  | (tsd, _, created) =>
    let key := created.getD pass.key
    ⟨key, zPthreadTlvSetKeyForImage { pass.process with tsd := tsd } mh key⟩

def Process.switchOver (mh : BitVec 64) (key : ℕ) (p : Process τ V) (d : ℕ) : Process τ V :=
  { p with
    descriptors := Function.update p.descriptors d
      { p.descriptors d with thunk := tlvGetAddr, key := key }
    switched := Function.update p.switched d (some mh) }

/-- `for (d = start; d < end; ++d)` -/
def variablesOf (slide : BitVec 64) (sect : Section) : List ℕ :=
  let start := (sect.addr + slide).toNat
  let stop := (sect.addr + sect.size + slide).toNat
  (List.range ((stop - start + 23) / 24)).map (start + 24 * ·)

def HoldsVariables (sect : Section) : Prop := sect.kind = S_THREAD_LOCAL_VARIABLES ∧ sect.size ≠ 0

instance (sect : Section) : Decidable (HoldsVariables sect) := inferInstanceAs (Decidable (_ ∧ _))

def sectionStep (mh slide : BitVec 64) (pass : Pass τ V) (sect : Section) : Pass τ V :=
  if HoldsVariables sect then
    let pass := if pass.key = 0 then pass.allocateKey mh else pass
    { pass with
      process := (variablesOf slide sect).foldl (Process.switchOver mh pass.key) pass.process }
  else pass

def zPthreadTlvInitializeDescriptors (p : Process τ V) (image : Image) : Process τ V :=
  (walk image.mh (sectionStep image.mh) image.commands ⟨0, false⟩ ⟨0, p⟩).1.process

/-! Images in turn, with the key operations of everybody else between them. -/

inductive Event (τ V : Type*) where
  | initializeDescriptors (image : Image)
  | keys (event : TsdKeys.Event τ V)

def Enabled (p : Process τ V) : Event τ V → Prop
  | .initializeDescriptors _ => True
  | .keys (.delete key) => ∀ i ∈ p.liveImages, i.key ≠ key
  | .keys _ => True

variable [DecidableEq τ]

def next (p : Process τ V) : Event τ V → Process τ V
  | .initializeDescriptors image => zPthreadTlvInitializeDescriptors p image
  | .keys event => { p with tsd := TsdKeys.next p.tsd event }

structure Initial (p : Process τ V) : Prop where
  liveImages : p.liveImages = []
  switched : ∀ d, p.switched d = none

structure Keyless (p q : Process τ V) (mh : BitVec 64) (ds : List ℕ) : Prop where
  tsd : q.tsd = p.tsd
  liveImages : ∃ n, q.liveImages = p.liveImages ++ List.replicate n ⟨0, mh⟩
  descriptor : ∀ d ∈ ds, (q.descriptors d).key = 0
  switched : ∀ d ∈ ds, q.switched d = some mh
  others : ∀ d, d ∉ ds → q.descriptors d = p.descriptors d ∧ q.switched d = p.switched d

omit [CodeAddresses] [DecidableEq τ] in
theorem Keyless.refl (p : Process τ V) (mh : BitVec 64) : Keyless p p mh [] :=
  ⟨rfl, ⟨0, by simp⟩, by simp, by simp, fun _ _ => ⟨rfl, rfl⟩⟩

omit [CodeAddresses] [DecidableEq τ] in
theorem Keyless.trans {p q r : Process τ V} {mh : BitVec 64} {ds es : List ℕ}
    (h : Keyless p q mh ds) (h' : Keyless q r mh es) : Keyless p r mh (ds ++ es) where
  tsd := h'.tsd.trans h.tsd
  liveImages := by
    obtain ⟨n, hn⟩ := h.liveImages
    obtain ⟨m, hm⟩ := h'.liveImages
    refine ⟨n + m, ?_⟩
    rw [hm, hn, List.append_assoc, List.replicate_append_replicate]
  descriptor d hd := by
    by_cases hes : d ∈ es
    · exact h'.descriptor d hes
    · rw [(h'.others d hes).1]
      exact h.descriptor d ((List.mem_append.mp hd).resolve_right hes)
  switched d hd := by
    by_cases hes : d ∈ es
    · exact h'.switched d hes
    · rw [(h'.others d hes).2]
      exact h.switched d ((List.mem_append.mp hd).resolve_right hes)
  others d hd := by
    rw [List.mem_append, not_or] at hd
    rw [(h'.others d hd.2).1, (h'.others d hd.2).2]
    exact h.others d hd.1

/-- Entries of the table with a key, and every descriptor written with one of them. -/
structure Registered (p : Process τ V) : Prop where
  keys : ∀ i ∈ p.liveImages, i.key ≠ 0 → Dynamic i.key ∧ Live p.tsd i.key
  alone : ∀ i ∈ p.liveImages, ∀ j ∈ p.liveImages, i.key ≠ 0 → i.key = j.key → i.mh = j.mh
  written : ∀ d mh, p.switched d = some mh → (p.descriptors d).thunk = tlvGetAddr ∧
    (p.descriptors d).key ≠ 0 ∧ ⟨(p.descriptors d).key, mh⟩ ∈ p.liveImages

end

local instance : CodeAddresses := TlvTerminators.placed

def started (keys : ℕ → BitVec 64) : Process Unit Unit :=
  ⟨⟨keys, fun _ => ⟨fun _ => none, 0⟩⟩, [], none, fun _ => ⟨0, 0, 0⟩, fun _ => none⟩

theorem started_initial (keys : ℕ → BitVec 64) : Initial (started keys) := ⟨rfl, fun _ => rfl⟩

end TlvImages

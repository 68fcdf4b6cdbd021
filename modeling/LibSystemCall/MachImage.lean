import Mathlib.Data.List.Basic

/-! # Load commands of an image

The loops over the load commands and their sections, with the slide in force at each
section: it is 0 until the first segment that maps something from the file. -/
namespace MachImage

def SECTION_TYPE : BitVec 32 := 0x000000ff
def S_THREAD_LOCAL_REGULAR : BitVec 32 := 0x11
def S_THREAD_LOCAL_ZEROFILL : BitVec 32 := 0x12
def S_THREAD_LOCAL_VARIABLES : BitVec 32 := 0x13
def S_THREAD_LOCAL_INIT_FUNCTION_POINTERS : BitVec 32 := 0x15

structure Section where
  addr : BitVec 64
  size : BitVec 64
  flags : BitVec 32
  deriving DecidableEq

def Section.kind (sect : Section) : BitVec 32 := sect.flags &&& SECTION_TYPE

structure Segment where
  vmaddr : BitVec 64
  filesize : BitVec 64
  sections : List Section
  deriving DecidableEq

inductive LoadCommand where
  | segment (seg : Segment)
  | other
  deriving DecidableEq

/-- An image is known by the address of its header. -/
structure Image where
  mh : BitVec 64
  commands : List LoadCommand
  deriving DecidableEq

structure Slide where
  value : BitVec 64
  computed : Bool

def Slide.enter (mh : BitVec 64) (slide : Slide) (seg : Segment) : Slide :=
  if !slide.computed ∧ seg.filesize ≠ 0 then ⟨mh - seg.vmaddr, true⟩ else slide

def walk {σ : Type*} (mh : BitVec 64) (body : BitVec 64 → σ → Section → σ) :
    List LoadCommand → Slide → σ → σ × Slide
  | [], slide, s => (s, slide)
  | .other :: cmds, slide, s => walk mh body cmds slide s
  | .segment seg :: cmds, slide, s =>
    let slide := slide.enter mh seg
    walk mh body cmds slide (seg.sections.foldl (body slide.value) s)

def placed (mh : BitVec 64) : List LoadCommand → Slide → List (BitVec 64 × Section)
  | [], _ => []
  | .other :: cmds, slide => placed mh cmds slide
  | .segment seg :: cmds, slide =>
    let slide := slide.enter mh seg
    seg.sections.map (slide.value, ·) ++ placed mh cmds slide

theorem walk_placed {σ : Type*} (mh : BitVec 64) (body : BitVec 64 → σ → Section → σ)
    (cmds : List LoadCommand) (slide : Slide) (s : σ) :
    (walk mh body cmds slide s).1 =
      (placed mh cmds slide).foldl (fun s p => body p.1 s p.2) s := by
  induction cmds generalizing slide s with
  | nil => rfl
  | cons cmd cmds ih =>
    cases cmd with
    | other => exact ih slide s
    | segment seg =>
      simp only [walk, placed, List.foldl_append, List.foldl_map]
      exact ih _ _

def LoadCommand.sections : LoadCommand → List Section
  | .segment seg => seg.sections
  | .other => []

theorem placed_computed (mh : BitVec 64) (cmds : List LoadCommand) (v : BitVec 64) :
    placed mh cmds ⟨v, true⟩ = (cmds.flatMap LoadCommand.sections).map (v, ·) := by
  induction cmds with
  | nil => rfl
  | cons cmd cmds ih =>
    cases cmd with
    | other => exact ih
    | segment seg =>
      have henter : (Slide.mk v true).enter mh seg = ⟨v, true⟩ := if_neg (by simp)
      simp only [placed, henter, ih, List.flatMap_cons, List.map_append]
      rfl

theorem placed_unbacked {mh : BitVec 64} {cmds : List LoadCommand}
    (h : ∀ seg, .segment seg ∈ cmds → seg.filesize = 0) (rest : List LoadCommand) :
    placed mh (cmds ++ rest) ⟨0, false⟩ =
      (cmds.flatMap LoadCommand.sections).map (0, ·) ++ placed mh rest ⟨0, false⟩ := by
  induction cmds with
  | nil => rfl
  | cons cmd cmds ih =>
    have hrest := ih fun seg hseg => h seg (List.mem_cons_of_mem _ hseg)
    cases cmd with
    | other => exact hrest
    | segment seg =>
      have henter : (Slide.mk 0 false).enter mh seg = ⟨0, false⟩ :=
        if_neg (by simp [h seg List.mem_cons_self])
      simp only [List.cons_append, placed, henter, hrest, List.flatMap_cons, List.map_append,
        List.append_assoc]
      rfl

theorem walk_slide_computed {σ : Type*} (mh : BitVec 64) (body : BitVec 64 → σ → Section → σ)
    (cmds : List LoadCommand) (v : BitVec 64) (s : σ) :
    (walk mh body cmds ⟨v, true⟩ s).2 = ⟨v, true⟩ := by
  induction cmds generalizing s with
  | nil => rfl
  | cons cmd cmds ih =>
    cases cmd with
    | other => exact ih s
    | segment seg =>
      have henter : (Slide.mk v true).enter mh seg = ⟨v, true⟩ := if_neg (by simp)
      simp only [walk, henter]
      exact ih _

theorem walk_slide_unbacked {σ : Type*} {mh : BitVec 64} (body : BitVec 64 → σ → Section → σ)
    {cmds : List LoadCommand} (h : ∀ seg, .segment seg ∈ cmds → seg.filesize = 0) {seg : Segment}
    (hseg : seg.filesize ≠ 0) (rest : List LoadCommand) (s : σ) :
    (walk mh body (cmds ++ .segment seg :: rest) ⟨0, false⟩ s).2 = ⟨mh - seg.vmaddr, true⟩ := by
  induction cmds generalizing s with
  | nil =>
    have henter : (Slide.mk 0 false).enter mh seg = ⟨mh - seg.vmaddr, true⟩ :=
      if_pos ⟨rfl, hseg⟩
    simp only [List.nil_append, walk, henter]
    exact walk_slide_computed _ _ _ _ _
  | cons cmd cmds ih =>
    have hrest := ih fun seg hseg => h seg (List.mem_cons_of_mem _ hseg)
    cases cmd with
    | other => exact hrest s
    | segment seg' =>
      have henter : (Slide.mk 0 false).enter mh seg' = ⟨0, false⟩ :=
        if_neg (by simp [h seg' List.mem_cons_self])
      simp only [List.cons_append, walk, henter]
      exact hrest _

def Image.sections (image : Image) : List (BitVec 64 × Section) :=
  placed image.mh image.commands ⟨0, false⟩

end MachImage

import LibSystemCall.ByteMemory
import LibSystemCall.MachImage
import Mathlib.Data.List.Induction

/-! # The template of an image's thread-local variables

The two passes of `z_pthread_tlv_allocate_and_initialize_for_key` over the load commands:
where the template lies and how long it is, and the pointers to the initializers. -/
namespace TlvTemplate

open ByteMemory MachImage

/-- `z_memcpy` with `n` bytes left. -/
def zMemcpy (m : Memory) (d p : ℕ) : ℕ → Memory
  | 0 => m
  | n + 1 => zMemcpy (store m d [m p]) (d + 1) (p + 1) n

structure Template where
  start : BitVec 64
  size : BitVec 64
  hasInitializers : Bool
  deriving DecidableEq

def HoldsTemplate (sect : Section) : Prop :=
  sect.kind = S_THREAD_LOCAL_ZEROFILL ∨ sect.kind = S_THREAD_LOCAL_REGULAR

instance (sect : Section) : Decidable (HoldsTemplate sect) := inferInstanceAs (Decidable (_ ∨ _))

def templateStep (slide : BitVec 64) (t : Template) (sect : Section) : Template :=
  if sect.kind = S_THREAD_LOCAL_INIT_FUNCTION_POINTERS then { t with hasInitializers := true }
  else if HoldsTemplate sect then
    if t.start = 0 then { t with start := sect.addr + slide, size := sect.size }
    else { t with size := sect.addr + slide + sect.size - t.start }
  else t

def firstPass (image : Image) : Template × Slide :=
  walk image.mh templateStep image.commands ⟨0, false⟩ ⟨0, 0, false⟩

/-- `funcs[j - 1]` for `j = count` down to 1. -/
def pointersOf (slide : BitVec 64) (sect : Section) : List (BitVec 64) :=
  if sect.kind = S_THREAD_LOCAL_INIT_FUNCTION_POINTERS then
    (List.range (sect.size.toNat / 8)).reverse.map fun j =>
      sect.addr + slide + BitVec.ofNat 64 (8 * j)
  else []

/-- The pointers in the order of the second pass, which has the last slide of the first. -/
def secondPass (image : Image) : List (BitVec 64) :=
  let (t, slide) := firstPass image
  if t.hasInitializers then
    (image.commands.flatMap LoadCommand.sections).flatMap (pointersOf slide.value)
  else []

def allSections (image : Image) : List Section := image.commands.flatMap LoadCommand.sections

def templateSections (image : Image) : List Section := (allSections image).filter HoldsTemplate

/-- From the start of the first section to the end of the last. -/
def extent (first last : Section) : ℕ := last.addr.toNat + last.size.toNat - first.addr.toNat

/-- The sections of the template ascend, one of them is not empty, none comes before `seg`, the
first segment mapped from the file, and with the slide of `seg` they are mapped. -/
structure TemplateAt (image : Image) (seg : Segment) (first last : Section) : Prop where
  backed : ∃ before after, image.commands = before ++ .segment seg :: after ∧ seg.filesize ≠ 0 ∧
    ∀ s, .segment s ∈ before → s.filesize = 0 ∧ ∀ sect ∈ s.sections, ¬ HoldsTemplate sect
  begins : (templateSections image).head? = some first
  ends : (templateSections image).getLast? = some last
  ascending : (templateSections image).Pairwise fun p q =>
    p.addr.toNat + p.size.toNat ≤ q.addr.toNat
  bounded : ∀ p ∈ templateSections image, p.addr.toNat + p.size.toNat ≤ 2 ^ 64
  nonempty : ∃ p ∈ templateSections image, p.size ≠ 0
  mapped : first.addr + (image.mh - seg.vmaddr) ≠ 0
  unwrapped : (first.addr + (image.mh - seg.vmaddr)).toNat + extent first last ≤ 2 ^ 64

def initializers (image : Image) (slide : BitVec 64) : List (BitVec 64) :=
  (allSections image).flatMap (pointersOf slide)

theorem zMemcpy_move {m : Memory} {d p n : ℕ} (h : d + n ≤ p ∨ p + n ≤ d) :
    zMemcpy m d p n = moveBytes m d p n := by
  induction n generalizing m d p with
  | zero =>
    funext x
    rw [zMemcpy, moveBytes_apply, if_neg (by omega)]
  | succ n ih =>
    have hfirst : store m d [m p] = moveBytes m d p 1 := rfl
    rw [zMemcpy, ih (by omega), hfirst, Nat.add_comm n 1]
    exact moveBytes_add (by omega)

theorem templateStep_start (slide : BitVec 64) (t : Template) {sect : Section}
    (h : ¬ HoldsTemplate sect) :
    (templateStep slide t sect).start = t.start ∧ (templateStep slide t sect).size = t.size := by
  unfold templateStep
  split
  · exact ⟨rfl, rfl⟩
  · exact ⟨rfl, rfl⟩

theorem templateStep_template (slide : BitVec 64) (t : Template) {sect : Section}
    (h : HoldsTemplate sect) :
    templateStep slide t sect = if t.start = 0 then
        { t with start := sect.addr + slide, size := sect.size }
      else { t with size := sect.addr + slide + sect.size - t.start } := by
  have hkind : sect.kind ≠ S_THREAD_LOCAL_INIT_FUNCTION_POINTERS := by
    rcases h with h | h
    all_goals
      rw [h]
      decide
  rw [templateStep, if_neg hkind, if_pos h]

theorem template_fold (slide : BitVec 64) {t : Template} (hstart : t.start = 0)
    (sections : List Section) :
    let T := sections.filter HoldsTemplate
    let r := sections.foldl (templateStep slide) t
    (T = [] → r.start = 0) ∧
      ∀ first last, T.head? = some first → T.getLast? = some last → first.addr + slide ≠ 0 →
        r.start = first.addr + slide ∧ r.size = last.addr + last.size - first.addr := by
  induction sections using List.reverseRecOn with
  | nil => exact ⟨fun _ => hstart, fun first last h => (nomatch h)⟩
  | append_singleton sections sect ih =>
    obtain ⟨ihnil, ihsome⟩ := ih
    simp only [List.filter_append, List.foldl_append, List.foldl_cons, List.foldl_nil]
    by_cases hsect : HoldsTemplate sect
    · rw [List.filter_cons_of_pos (by simpa using hsect), List.filter_nil,
        templateStep_template _ _ hsect]
      refine ⟨fun hnil => absurd hnil (by simp), fun first last hfirst hlast hne => ?_⟩
      obtain rfl : sect = last := by simpa using hlast
      cases hT : sections.filter HoldsTemplate with
      | nil =>
        obtain rfl : sect = first := by simpa [hT] using hfirst
        have hsize : sect.size = sect.addr + sect.size - sect.addr := by
          bv_omega
        rw [if_pos (ihnil hT)]
        exact ⟨rfl, hsize⟩
      | cons p T =>
        have hhead : (sections.filter HoldsTemplate).head? = some first := by
          simpa [hT] using hfirst
        obtain ⟨q, hq⟩ : ∃ q, (sections.filter HoldsTemplate).getLast? = some q :=
          ⟨_, List.getLast?_eq_some_getLast (hT ▸ List.cons_ne_nil p T)⟩
        obtain ⟨hr, -⟩ := ihsome first q hhead hq hne
        rw [if_neg (by rw [hr]; exact hne)]
        have hsize : sect.addr + slide + sect.size - (first.addr + slide) =
            sect.addr + sect.size - first.addr := by
          bv_omega
        refine ⟨hr, ?_⟩
        rw [← hsize, ← hr]
    · have hnil : [sect].filter HoldsTemplate = [] := List.filter_cons_of_neg (by simpa using hsect)
      obtain ⟨hs, hz⟩ := templateStep_start slide (sections.foldl (templateStep slide) t) hsect
      rw [hnil, List.append_nil, hs, hz]
      exact ⟨ihnil, ihsome⟩

theorem hasInitializers_fold (sections : List (BitVec 64 × Section)) (t : Template) :
    (sections.foldl (fun t p => templateStep p.1 t p.2) t).hasInitializers = true ↔
      t.hasInitializers = true ∨
        ∃ p ∈ sections, p.2.kind = S_THREAD_LOCAL_INIT_FUNCTION_POINTERS := by
  induction sections generalizing t with
  | nil => simp
  | cons p sections ih =>
    have hstep : (templateStep p.1 t p.2).hasInitializers = true ↔
        t.hasInitializers = true ∨ p.2.kind = S_THREAD_LOCAL_INIT_FUNCTION_POINTERS := by
      unfold templateStep
      split
      · next h => exact iff_of_true rfl (.inr h)
      · next h =>
        rw [or_iff_left h]
        split
        · split <;> rfl
        · rfl
    rw [List.foldl_cons, ih, hstep, or_assoc]
    simp only [List.mem_cons, exists_eq_or_imp]

theorem sections_placed (image : Image) :
    image.sections.map Prod.snd = allSections image := by
  suffices h : ∀ cmds slide, (placed image.mh cmds slide).map Prod.snd =
      cmds.flatMap LoadCommand.sections from h image.commands ⟨0, false⟩
  intro cmds
  induction cmds with
  | nil => exact fun _ => rfl
  | cons cmd cmds ih =>
    intro slide
    cases cmd with
    | other => exact ih slide
    | segment seg =>
      simp only [placed, List.map_append, List.map_map, ih, List.flatMap_cons]
      congr 1
      exact List.map_id _

theorem secondPass_eq (image : Image) :
    secondPass image = initializers image (firstPass image).2.value := by
  unfold secondPass
  simp only
  split
  · rfl
  · next hnone =>
    rw [firstPass, walk_placed, hasInitializers_fold, not_or] at hnone
    have hpointers : ∀ sect ∈ allSections image,
        pointersOf (firstPass image).2.value sect = [] := by
      intro sect hsect
      rw [← sections_placed, List.mem_map] at hsect
      obtain ⟨p, hp, rfl⟩ := hsect
      exact if_neg fun hkind => hnone.2 ⟨p, hp, hkind⟩
    exact (List.flatMap_eq_nil_iff.mpr hpointers).symm

variable {image : Image} {seg : Segment} {first last : Section}

theorem TemplateAt.slide (h : TemplateAt image seg first last) :
    (firstPass image).2 = ⟨image.mh - seg.vmaddr, true⟩ := by
  obtain ⟨before, after, hcommands, hseg, hbefore⟩ := h.backed
  rw [firstPass, hcommands]
  exact walk_slide_unbacked _ (fun s hs => (hbefore s hs).1) hseg _ _

theorem TemplateAt.pass (h : TemplateAt image seg first last) :
    (firstPass image).1.start = first.addr + (image.mh - seg.vmaddr) ∧
      (firstPass image).1.size = last.addr + last.size - first.addr := by
  obtain ⟨before, after, hcommands, hseg, hbefore⟩ := h.backed
  have hplain : ∀ sect ∈ before.flatMap LoadCommand.sections, ¬ HoldsTemplate sect := by
    intro sect hsect
    obtain ⟨cmd, hcmd, hsect⟩ := List.mem_flatMap.mp hsect
    cases cmd with
    | other => cases hsect
    | segment s => exact (hbefore s hcmd).2 sect hsect
  have hsections : image.sections = (before.flatMap LoadCommand.sections).map (0, ·) ++
      ((LoadCommand.segment seg :: after).flatMap LoadCommand.sections).map
        (image.mh - seg.vmaddr, ·) := by
    have henter : (Slide.mk 0 false).enter image.mh seg = ⟨image.mh - seg.vmaddr, true⟩ :=
      if_pos ⟨rfl, hseg⟩
    rw [Image.sections, hcommands, placed_unbacked fun s hs => (hbefore s hs).1, placed, henter,
      placed_computed, ← List.map_append]
    rfl
  have hskip : ∀ (sections : List Section) (t : Template), (∀ sect ∈ sections,
      ¬ HoldsTemplate sect) → (sections.foldl (templateStep 0) t).start = t.start := by
    intro sections
    induction sections with
    | nil => exact fun _ _ => rfl
    | cons sect sections ih =>
      intro t hall
      rw [List.foldl_cons, ih _ fun s hs => hall s (List.mem_cons_of_mem _ hs)]
      exact (templateStep_start 0 t (hall sect List.mem_cons_self)).1
  have htemplate : templateSections image =
      ((LoadCommand.segment seg :: after).flatMap LoadCommand.sections).filter HoldsTemplate := by
    rw [templateSections, allSections, hcommands, List.flatMap_append, List.filter_append,
      List.filter_eq_nil_iff.mpr (by simpa using hplain), List.nil_append]
  have hrun := template_fold (image.mh - seg.vmaddr)
    (hskip (before.flatMap LoadCommand.sections) ⟨0, 0, false⟩ hplain)
    ((LoadCommand.segment seg :: after).flatMap LoadCommand.sections)
  rw [firstPass, walk_placed]
  change (image.sections.foldl (fun t p => templateStep p.1 t p.2) ⟨0, 0, false⟩).start = _ ∧
    (image.sections.foldl (fun t p => templateStep p.1 t p.2) ⟨0, 0, false⟩).size = _
  rw [hsections, List.foldl_append, List.foldl_map, List.foldl_map]
  exact hrun.2 first last (htemplate ▸ h.begins) (htemplate ▸ h.ends) h.mapped

theorem TemplateAt.within (h : TemplateAt image seg first last) {p : Section}
    (hp : p ∈ templateSections image) : first.addr.toNat ≤ p.addr.toNat ∧
      p.addr.toNat + p.size.toNat ≤ last.addr.toNat + last.size.toNat := by
  have hasc := h.ascending
  constructor
  · obtain ⟨rest, hrest⟩ := List.head?_eq_some_iff.mp h.begins
    rw [hrest] at hp hasc
    rcases List.mem_cons.mp hp with rfl | hp
    · exact Nat.le_refl _
    · have := (List.pairwise_cons.mp hasc).1 p hp
      omega
  · obtain ⟨rest, hrest⟩ := List.getLast?_eq_some_iff.mp h.ends
    rw [hrest] at hp hasc
    rcases List.mem_append.mp hp with hp | hp
    · have := (List.pairwise_append.mp hasc).2.2 p hp last (List.mem_singleton_self _)
      omega
    · apply Nat.le_of_eq
      rw [List.mem_singleton.mp hp]

theorem TemplateAt.extent_pos (h : TemplateAt image seg first last) : 0 < extent first last := by
  obtain ⟨p, hp, hsize⟩ := h.nonempty
  have hwithin := h.within hp
  have hpos : p.size.toNat ≠ 0 := fun h0 => hsize (BitVec.eq_of_toNat_eq h0)
  unfold extent
  omega

theorem TemplateAt.size (h : TemplateAt image seg first last) :
    (firstPass image).1.size.toNat = extent first last := by
  have hlast : last ∈ templateSections image := List.mem_of_getLast? h.ends
  have hbounded := h.bounded last hlast
  have hfirst := (h.within hlast).1
  have hmapped : 0 < (first.addr + (image.mh - seg.vmaddr)).toNat :=
    Nat.pos_of_ne_zero fun h0 => h.mapped (BitVec.eq_of_toNat_eq h0)
  have hunwrapped := h.unwrapped
  rw [h.pass.2]
  unfold extent at *
  rw [BitVec.toNat_sub, BitVec.toNat_add]
  omega

theorem TemplateAt.size_ne (h : TemplateAt image seg first last) : (firstPass image).1.size ≠ 0 := by
  intro h0
  have hpos := h.extent_pos
  rw [← h.size, h0] at hpos
  exact Nat.lt_irrefl _ hpos

theorem TemplateAt.pointers (h : TemplateAt image seg first last) :
    secondPass image = initializers image (image.mh - seg.vmaddr) := by
  rw [secondPass_eq, h.slide]

end TlvTemplate

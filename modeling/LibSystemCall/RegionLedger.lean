import Mathlib.Data.Set.Lattice
import Mathlib.Order.CompletePartialOrder

/-! # Memory parted between owners

What is mapped is a base that nobody gives back and, apart from it, a region of each owner. -/
namespace RegionLedger

variable {α ι : Type*}

structure Parted (base mapped : Set α) (own : ι → Set α) : Prop where
  mapped : mapped = base ∪ ⋃ i, own i
  disjoint : Pairwise fun i j => Disjoint (own i) (own j)
  clear : ∀ i, Disjoint base (own i)

variable {base mapped : Set α} {own : ι → Set α}

theorem Parted.owned (h : Parted base mapped own) (i : ι) : own i ⊆ mapped := by
  rw [h.mapped]
  exact Set.subset_union_of_subset_right (Set.subset_iUnion own i) _

theorem Parted.returned (h : Parted base mapped own) (hall : ∀ i, own i = ∅) : mapped = base := by
  rw [h.mapped]
  simp [hall]

variable [DecidableEq ι]

theorem Parted.grant (h : Parted base mapped own) {i : ι} {r : Set α} (hempty : own i = ∅)
    (hfresh : Disjoint mapped r) : Parted base (mapped ∪ r) (Function.update own i r) := by
  have hbase : Disjoint base r := hfresh.mono_left (h.mapped ▸ Set.subset_union_left)
  have hother : ∀ j, Disjoint (own j) r := fun j => hfresh.mono_left (h.owned j)
  refine ⟨?_, fun j k hjk => ?_, fun j => ?_⟩
  · ext x
    simp only [h.mapped, Set.mem_union, Set.mem_iUnion, Function.update_apply]
    constructor
    · rintro ((hx | ⟨j, hx⟩) | hx)
      · exact .inl hx
      · have hj : j ≠ i := by
          rintro rfl
          rw [hempty] at hx
          exact hx
        exact .inr ⟨j, by rwa [if_neg hj]⟩
      · exact .inr ⟨i, by rwa [if_pos rfl]⟩
    · rintro (hx | ⟨j, hx⟩)
      · exact .inl (.inl hx)
      · split at hx
        · exact .inr hx
        · exact .inl (.inr ⟨j, hx⟩)
  · simp only [Function.update_apply]
    split
    · next hj =>
      rw [if_neg (hj ▸ hjk.symm)]
      exact (hother k).symm
    · split
      · exact hother j
      · exact h.disjoint hjk
  · simp only [Function.update_apply]
    split
    · exact hbase
    · exact h.clear j

theorem Parted.give (h : Parted base mapped own) {i : ι} {r rest : Set α}
    (hsplit : own i = r ∪ rest) (hrest : Disjoint r rest) :
    Parted base (mapped \ r) (Function.update own i rest) := by
  have hr : r ⊆ own i := hsplit ▸ Set.subset_union_left
  have hle : rest ⊆ own i := hsplit ▸ Set.subset_union_right
  refine ⟨?_, fun j k hjk => ?_, fun j => ?_⟩
  · ext x
    simp only [h.mapped, Set.mem_sdiff, Set.mem_union, Set.mem_iUnion, Function.update_apply]
    constructor
    · rintro ⟨hx | ⟨j, hx⟩, hnot⟩
      · exact .inl hx
      · by_cases hj : j = i
        · subst hj
          rw [hsplit] at hx
          exact .inr ⟨j, by rw [if_pos rfl]; exact hx.resolve_left hnot⟩
        · exact .inr ⟨j, by rwa [if_neg hj]⟩
    · rintro (hx | ⟨j, hx⟩)
      · exact ⟨.inl hx, fun hxr => Set.disjoint_left.mp (h.clear i) hx (hr hxr)⟩
      · split at hx
        · exact ⟨.inr ⟨i, hle hx⟩, fun hxr => Set.disjoint_left.mp hrest hxr hx⟩
        · next hj =>
          exact ⟨.inr ⟨j, hx⟩, fun hxr => Set.disjoint_left.mp (h.disjoint hj) hx (hr hxr)⟩
  · simp only [Function.update_apply]
    split
    · next hj =>
      rw [if_neg (hj ▸ hjk.symm)]
      exact (h.disjoint (hj ▸ hjk)).mono_left hle
    · split
      · next hk => exact (h.disjoint (hk ▸ hjk)).mono_right hle
      · exact h.disjoint hjk
  · simp only [Function.update_apply]
    split
    · exact (h.clear i).mono_right hle
    · exact h.clear j

end RegionLedger

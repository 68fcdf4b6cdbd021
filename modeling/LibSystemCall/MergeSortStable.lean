import LibSystemCall.MergeSortSetup
import Mathlib.Tactic.SplitIfs

/-! # z_mergesort sorts, and is stable -/
namespace MergeSort

open ByteMemory ElementArray StableMerge StringMemmove

variable {cmp : List UInt8 → List UInt8 → ℤ} {size n base buf : ℕ}

/-- What a caller gets: the elements of the array, sorted by `cmp`, with those that compare
equal in their original order. -/
structure SortedInPlace (cmp : List UInt8 → List UInt8 → ℤ) (size base n : ℕ)
    (m m' : Memory) : Prop where
  sorted : Sorted (leOf cmp) (elements size m' base n)
  stable : Stable (leOf cmp) (elements size m base n) (elements size m' base n)

theorem SortedInPlace.of_laid {m m' : Memory} {es : List (List UInt8)}
    (hs : Sorted (leOf cmp) es) (ht : Stable (leOf cmp) (elements size m base n) es)
    (hl : Laid size m' base es) : SortedInPlace cmp size base n m m' := by
  have hlen : es.length = n := by rw [ht.length_eq, length_elements]
  have he := hl.elements_eq
  rw [hlen] at he
  exact ⟨by rwa [he], by rwa [he]⟩

theorem word_dvd {P : Prop} [Decidable P] (h : P → size % ISIZE = 0) :
    (if P then ISIZE else 1) ∣ size := by
  split_ifs with hp
  · exact Nat.dvd_of_mod_eq_zero (h hp)
  · exact Nat.one_dvd size

theorem SortedInPlace.nil (m m' : Memory) : SortedInPlace cmp size base 0 m m' :=
  ⟨List.Pairwise.nil, .refl _⟩

/-- The sort returns. The last copy may take along a word behind the array. -/
theorem zMergesort_sorts (hcmp : Comparator cmp) (h : SortBlocks size n base buf) (m : Memory) :
    ∃ r, zMergesort cmp m base n size (some buf) = some r ∧ r.ret = 0 ∧
      SortedInPlace cmp size base n m r.mem ∧ SameOutsideBlocks size n base buf m r.mem := by
  have hwidth : ¬ size < PSIZE / 2 := Nat.not_lt.mpr h.width
  rw [zMergesort, if_neg hwidth]
  by_cases hn : n = 0
  · subst hn
    exact ⟨_, if_pos rfl, rfl, .nil m m, fun _ _ _ => rfl⟩
  · rw [if_neg hn]
    have hpos : 0 < n := Nat.pos_of_ne_zero hn
    obtain ⟨runs, hruns, hsetup⟩ := zSetup_sorting (m := m) hcmp h hpos
    have hbytes : 0 < n * size := Nat.mul_pos hpos (lt_of_lt_of_le (by decide) h.width)
    have hapart : base ≠ buf := by
      have := h.apart
      omega
    have hword : (if size % ISIZE = 0 ∧ base % ISIZE = 0 then ISIZE else 1) ∣ size :=
      word_dvd And.left
    obtain ⟨s, es, hloop, hlaid, hsorted, hstable, hlists, hpasses⟩ :=
      sortLoop_sorts hcmp hword hpos hruns
        (Nat.le_succ_of_le (hruns.rounds hpos))
    have hsame : SameOutsideBlocks size n base buf m s.mem :=
      fun x h1 h2 => (hpasses.blocks x h1 h2).trans (hsetup x h1 h2)
    simp only [hloop, Option.map_some]
    refine ⟨_, rfl, ?_⟩
    rcases hlists with ⟨h1, h2⟩ | ⟨h1, h2⟩
    · -- an even number of passes
      simp only at h1 h2
      rw [if_neg (by rw [h2]; exact hapart)]
      rw [h1] at hlaid
      exact ⟨rfl, .of_laid hsorted hstable hlaid, hsame⟩
    · -- an odd number: the sorted list is in the block
      simp only at h1 h2
      rw [if_pos h2.symm]
      refine ⟨rfl, .of_laid hsorted hstable (hlaid.copy fun i hi => ?_), fun x hx hx' => ?_⟩
      · have hlen := hstable.length_eq
        rw [length_elements] at hlen
        rw [hlen] at hi
        rw [← h2]
        exact zMemmove_inside s.mem s.list2 s.list1 (n * size) i hi
      · rw [← hsame x hx hx', h2]
        exact zMemmove_outside s.mem base s.list1 (n * size) hx

theorem mergesort_stable (hcmp : Comparator cmp) (h : SortBlocks size n base buf) (m : Memory) :
    ∃ r, zMergesort cmp m base n size (some buf) = some r ∧ r.ret = 0 ∧
      SortedInPlace cmp size base n m r.mem := by
  obtain ⟨r, hrun, hret, hsorted, -⟩ := zMergesort_sorts hcmp h m
  exact ⟨r, hrun, hret, hsorted⟩

/-- Seven elements of four bytes at an odd address, compared by their first byte. -/
theorem seven_elements_sorted :
    ∃ r, zMergesort (fun a b => (a.headD 0).toNat - (b.headD 0).toNat)
        (fun x => UInt8.ofNat (x * x)) 1001 7 4 (some 8192) = some r ∧ r.ret = 0 ∧
      SortedInPlace (fun a b => (a.headD 0).toNat - (b.headD 0).toNat) 4 1001 7
        (fun x => UInt8.ofNat (x * x)) r.mem := by
  refine mergesort_stable ⟨fun a b => ?_, fun a b c hab hbc => ?_⟩
    ⟨by decide, by decide, by decide, by decide, by decide, by decide⟩ _
  · omega
  · omega

end MergeSort

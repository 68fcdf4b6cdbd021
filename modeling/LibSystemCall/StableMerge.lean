import Mathlib.Data.List.Basic

/-! # Stable rearrangements of lists

For a total preorder given as a Boolean `le`: what it means to rearrange a list without
exchanging equivalent elements, and how merging two sorted lists does so. -/
namespace StableMerge

variable {α : Type*} {le : α → α → Bool}

structure TotalPreorder (le : α → α → Bool) : Prop where
  total : ∀ a b, le a b = true ∨ le b a = true
  trans : ∀ a b c, le a b = true → le b c = true → le a c = true

def equiv (le : α → α → Bool) (a b : α) : Bool := le a b && le b a

abbrev Sorted (le : α → α → Bool) (xs : List α) : Prop := xs.Pairwise fun a b => le a b = true

/-- `ys` is `xs` rearranged, with equivalent elements in their original order. -/
structure Stable (le : α → α → Bool) (xs ys : List α) : Prop where
  perm : ys.Perm xs
  order : ∀ a, ys.filter (equiv le a) = xs.filter (equiv le a)

theorem Stable.refl (xs : List α) : Stable le xs xs := ⟨.refl xs, fun _ => rfl⟩

theorem Stable.trans {xs ys zs : List α} (h : Stable le xs ys) (k : Stable le ys zs) :
    Stable le xs zs :=
  ⟨k.perm.trans h.perm, fun a => (k.order a).trans (h.order a)⟩

theorem Stable.append {xs xs' ys ys' : List α} (h : Stable le xs xs') (k : Stable le ys ys') :
    Stable le (xs ++ ys) (xs' ++ ys') := by
  refine ⟨h.perm.append k.perm, fun a => ?_⟩
  rw [List.filter_append, List.filter_append, h.order a, k.order a]

theorem Stable.length_eq {xs ys : List α} (h : Stable le xs ys) : ys.length = xs.length :=
  h.perm.length_eq

theorem le_of_not_le (hle : TotalPreorder le) {a b : α} (h : ¬ le a b = true) :
    le b a = true := (hle.total a b).resolve_left h

theorem not_equiv_of_between (hle : TotalPreorder le) {a x y : α} (hxy : ¬ le x y = true)
    (ha : equiv le a y = true) : equiv le a x = false := by
  rw [Bool.eq_false_iff]
  intro hax
  simp only [equiv, Bool.and_eq_true] at ha hax
  exact hxy (hle.trans x a y hax.2 ha.1)

theorem stable_swap (hle : TotalPreorder le) {x y : α} (h : ¬ le x y = true) :
    Stable le [x, y] [y, x] := by
  refine ⟨.swap x y [], fun a => ?_⟩
  by_cases hy : equiv le a y = true
  · have hx := not_equiv_of_between hle h hy
    simp [hx, hy]
  · simp only [Bool.not_eq_true] at hy
    by_cases hx : equiv le a x = true <;> simp [hx, hy]

theorem sorted_merge (hle : TotalPreorder le) {xs ys : List α} (hx : Sorted le xs)
    (hy : Sorted le ys) : Sorted le (xs.merge ys le) :=
  List.pairwise_merge hle.trans (fun a b => by simpa using hle.total a b) xs ys hx hy

theorem filter_merge (hle : TotalPreorder le) (a : α) {xs ys : List α} (hx : Sorted le xs)
    (hy : Sorted le ys) :
    (xs.merge ys le).filter (equiv le a) =
      xs.filter (equiv le a) ++ ys.filter (equiv le a) := by
  induction xs generalizing ys with
  | nil => simp
  | cons x xs ihx =>
    induction ys with
    | nil => simp
    | cons y ys ihy =>
      obtain ⟨hxs, hx'⟩ := List.pairwise_cons.mp hx
      obtain ⟨hys, hy'⟩ := List.pairwise_cons.mp hy
      by_cases hxy : le x y = true
      · rw [List.cons_merge_cons_pos _ _ _ hxy]
        by_cases hax : equiv le a x = true
        · rw [List.filter_cons_of_pos hax, List.filter_cons_of_pos hax, ihx hx' hy]
          rfl
        · rw [List.filter_cons_of_neg hax, List.filter_cons_of_neg hax, ihx hx' hy]
      · rw [List.cons_merge_cons_neg _ _ _ hxy, List.filter_cons, ihy hy']
        by_cases hay : equiv le a y = true
        · -- the whole class lies in `ys`
          have hnone : (x :: xs).filter (equiv le a) = [] := by
            rw [List.filter_eq_nil_iff]
            intro z hz
            have hzy : ¬ le z y = true := by
              intro hzy
              rcases List.mem_cons.mp hz with rfl | hz
              · exact hxy hzy
              · exact hxy (hle.trans x z y (hxs z hz) hzy)
            simp [not_equiv_of_between hle hzy hay]
          rw [hnone, if_pos hay, List.filter_cons, if_pos hay]
          rfl
        · rw [if_neg hay, List.filter_cons (x := y), if_neg hay]

theorem stable_merge (hle : TotalPreorder le) {xs ys : List α} (hx : Sorted le xs)
    (hy : Sorted le ys) : Stable le (xs ++ ys) (xs.merge ys le) := by
  refine ⟨List.merge_perm_append le, fun a => ?_⟩
  rw [filter_merge hle a hx hy, List.filter_append]

/-! A merge goes by stretches: all of one list that belongs before the head of the other. -/

theorem merge_cons_right (le : α → α → Bool) (xs ys : List α) (y : α) :
    xs.merge (y :: ys) le =
      xs.takeWhile (fun x => le x y) ++ y :: (xs.dropWhile fun x => le x y).merge ys le := by
  induction xs with
  | nil => simp
  | cons x xs ih =>
    by_cases hxy : le x y = true
    · rw [List.cons_merge_cons_pos _ _ _ hxy, ih]
      simp [hxy]
    · rw [List.cons_merge_cons_neg _ _ _ hxy]
      simp [hxy]

theorem merge_cons_left (le : α → α → Bool) (xs ys : List α) (x : α) :
    (x :: xs).merge ys le =
      ys.takeWhile (fun y => !le x y) ++ x :: xs.merge (ys.dropWhile fun y => !le x y) le := by
  induction ys with
  | nil => simp
  | cons y ys ih =>
    by_cases hxy : le x y = true
    · rw [List.cons_merge_cons_pos _ _ _ hxy]
      simp [hxy]
    · rw [List.cons_merge_cons_neg _ _ _ hxy, ih]
      simp [hxy]

theorem takeWhile_cut {P : α → Bool} {xs : List α} (hs : Sorted le xs)
    (hP : ∀ a b, le a b = true → P b = true → P a = true) {j : ℕ} (hj : j < xs.length) :
    P xs[j] = decide (j < (xs.takeWhile P).length) := by
  induction xs generalizing j with
  | nil => simp at hj
  | cons x xs ih =>
    obtain ⟨hx, hs'⟩ := List.pairwise_cons.mp hs
    by_cases hPx : P x = true
    · rw [List.takeWhile_cons_of_pos hPx]
      cases j with
      | zero => simp [hPx]
      | succ j =>
        rw [List.getElem_cons_succ, ih hs' (by simpa using hj)]
        simp
    · rw [List.takeWhile_cons_of_neg hPx]
      cases j with
      | zero => simpa using hPx
      | succ j =>
        have hj' : j < xs.length := by simpa using hj
        have hle := hx xs[j] (List.getElem_mem hj')
        have hno : ¬ P xs[j] = true := fun h => hPx (hP x xs[j] hle h)
        simpa using hno

def mergePairs (le : α → α → Bool) : List (List α) → List (List α)
  | [] => []
  | [xs] => [xs]
  | xs :: ys :: rest => xs.merge ys le :: mergePairs le rest

theorem stable_mergePairs (hle : TotalPreorder le) (runs : List (List α))
    (hs : ∀ r ∈ runs, Sorted le r) : Stable le runs.flatten (mergePairs le runs).flatten := by
  induction runs using mergePairs.induct with
  | case1 => exact .refl _
  | case2 xs => exact .refl _
  | case3 xs ys rest ih =>
    simp only [mergePairs, List.flatten_cons, ← List.append_assoc]
    exact (stable_merge hle (hs xs (by simp)) (hs ys (by simp))).append
      (ih fun r hr => hs r (by simp [hr]))

theorem sorted_mergePairs (hle : TotalPreorder le) (runs : List (List α))
    (hs : ∀ r ∈ runs, Sorted le r) : ∀ r ∈ mergePairs le runs, Sorted le r := by
  induction runs using mergePairs.induct with
  | case1 => simp [mergePairs]
  | case2 xs => simpa [mergePairs] using hs
  | case3 xs ys rest ih =>
    intro r hr
    rcases List.mem_cons.mp hr with rfl | hr
    · exact sorted_merge hle (hs xs (by simp)) (hs ys (by simp))
    · exact ih (fun r hr => hs r (by simp [hr])) r hr

theorem length_mergePairs (le : α → α → Bool) (runs : List (List α)) :
    (mergePairs le runs).length = (runs.length + 1) / 2 := by
  induction runs using mergePairs.induct with
  | case1 => simp [mergePairs]
  | case2 xs => simp [mergePairs]
  | case3 xs ys rest ih =>
    simp only [mergePairs, List.length_cons, ih]
    omega

/-! One element of each class: a scan drops what is equivalent to the last element it kept. -/

def keepFirst (le : α → α → Bool) : Option α → List α → List α
  | _, [] => []
  | last, y :: ys =>
    if last.any fun x => equiv le x y then keepFirst le last ys
    else y :: keepFirst le (some y) ys

theorem keepFirst_subset {last : Option α} {ys : List α} {y : α}
    (h : y ∈ keepFirst le last ys) : y ∈ ys := by
  induction ys generalizing last with
  | nil => exact h
  | cons z ys ih =>
    rw [keepFirst] at h
    split at h
    · exact List.mem_cons_of_mem _ (ih h)
    · rcases List.mem_cons.mp h with rfl | h
      · exact List.mem_cons_self
      · exact List.mem_cons_of_mem _ (ih h)

theorem equiv_refl (hle : TotalPreorder le) (a : α) : equiv le a a = true := by
  have h := or_self_iff.mp (hle.total a a)
  simp [equiv, h]

theorem equiv_symm {a b : α} (h : equiv le a b = true) : equiv le b a = true := by
  simpa [equiv, and_comm] using h

theorem equiv_trans (hle : TotalPreorder le) {a b c : α} (h : equiv le a b = true)
    (k : equiv le b c = true) : equiv le a c = true := by
  simp only [equiv, Bool.and_eq_true] at *
  exact ⟨hle.trans a b c h.1 k.1, hle.trans c b a k.2 h.2⟩

theorem mem_keepFirst (hle : TotalPreorder le) {last : Option α} {ys : List α} {y : α}
    (hs : Sorted le ys) (hlast : ∀ x ∈ last, ∀ z ∈ ys, le x z = true) :
    y ∈ keepFirst le last ys ↔
      (∀ x ∈ last, equiv le x y = false) ∧ (ys.filter (equiv le y)).head? = some y := by
  induction ys generalizing last with
  | nil => simp [keepFirst]
  | cons z ys ih =>
    obtain ⟨hz, hs'⟩ := List.pairwise_cons.mp hs
    rw [keepFirst]
    by_cases hdrop : (last.any fun x => equiv le x z) = true
    · obtain ⟨x, hx, hxz⟩ : ∃ x, last = some x ∧ equiv le x z = true := by
        simpa [Option.any_eq_true] using hdrop
      rw [if_pos hdrop, ih hs' fun x hx w hw => hlast x hx w (List.mem_cons_of_mem _ hw)]
      refine and_congr_right fun hy => ?_
      have hyz : ¬ equiv le y z = true := by
        intro hyz
        have hxy := hy x hx
        rw [equiv_trans hle hxz (equiv_symm hyz)] at hxy
        exact absurd hxy (by decide)
      rw [List.filter_cons_of_neg hyz]
    · rw [if_neg hdrop, List.mem_cons, ih hs' fun x hx w hw => by
        rw [← Option.mem_some.mp hx]
        exact hz w hw]
      have hout : ∀ x ∈ last, equiv le x z = false := by
        intro x hx
        rw [Option.mem_def.mp hx] at hdrop
        simpa using hdrop
      constructor
      · rintro (rfl | ⟨hy, hhead⟩)
        · exact ⟨hout, by simp [equiv_refl hle y]⟩
        · have hzy : equiv le z y = false := hy z rfl
          have hyz : ¬ equiv le y z = true := fun h => by
            rw [equiv_symm h] at hzy
            exact absurd hzy (by decide)
          refine ⟨fun x hx => ?_, by rwa [List.filter_cons_of_neg hyz]⟩
          -- `z` stands between `x` and `y`
          have hmem : y ∈ ys := List.mem_of_mem_filter (List.mem_of_mem_head? hhead)
          have hxz := hlast x hx z List.mem_cons_self
          have hle' : ¬ le z x = true := fun h => by
            have := hout x hx
            simp [equiv, hxz, h] at this
          rw [Bool.eq_false_iff]
          intro hxy
          simp only [equiv, Bool.and_eq_true] at hxy
          exact hle' (hle.trans z y x (hz y hmem) hxy.2)
      · rintro ⟨hy, hhead⟩
        by_cases hyz : equiv le y z = true
        · rw [List.filter_cons_of_pos hyz, List.head?_cons, Option.some.injEq] at hhead
          exact .inl hhead.symm
        · rw [List.filter_cons_of_neg hyz] at hhead
          refine .inr ⟨fun x hx => ?_, hhead⟩
          rw [← Option.mem_some.mp hx, Bool.eq_false_iff]
          exact fun h => hyz (equiv_symm h)

theorem Stable.mem_keepFirst (hle : TotalPreorder le) {xs ys : List α} {y : α}
    (h : Stable le xs ys) (hs : Sorted le ys) :
    y ∈ keepFirst le none ys ↔ (xs.filter (equiv le y)).head? = some y := by
  rw [StableMerge.mem_keepFirst hle hs (by simp), h.order]
  simp

theorem head?_filter_iff {P : α → Bool} {xs ys : List α} {y : α} (hy : P y = true)
    (hnot : y ∉ xs) :
    ((xs ++ y :: ys).filter P).head? = some y ↔ ∀ x ∈ xs, ¬ P x = true := by
  rw [List.filter_append, List.filter_cons_of_pos hy, ← List.filter_eq_nil_iff]
  cases hxs : xs.filter P with
  | nil => simp
  | cons x rest =>
    have hx : x ∈ xs := List.mem_of_mem_filter (p := P) (hxs ▸ List.mem_cons_self)
    simp only [List.cons_append, List.head?_cons, Option.some.injEq, reduceCtorEq, iff_false]
    rintro rfl
    exact hnot hx

theorem Stable.of_map {β : Type*} {f : β → α} {g : α → β} {xs : List β} {ys : List α}
    (hg : ∀ b ∈ xs, g (f b) = b) (h : Stable le (xs.map f) ys) :
    ∃ zs, ys = zs.map f ∧ Stable (fun a b => le (f a) (f b)) xs zs := by
  have hxs : (xs.map f).map g = xs := by
    rw [List.map_map]
    exact (List.map_congr_left hg).trans (List.map_id xs)
  have hys : (ys.map g).map f = ys := by
    rw [List.map_map]
    refine (List.map_congr_left fun y hy => ?_).trans (List.map_id ys)
    obtain ⟨b, hb, rfl⟩ := List.mem_map.mp (h.perm.mem_iff.mp hy)
    exact congrArg f (hg b hb)
  obtain ⟨zs, rfl, hperm⟩ : ∃ zs, ys = zs.map f ∧ zs.Perm xs :=
    ⟨ys.map g, hys.symm, hxs ▸ h.perm.map g⟩
  refine ⟨zs, rfl, hperm, fun a => ?_⟩
  have himage := h.order (f a)
  rw [List.filter_map, List.filter_map] at himage
  have hback := congrArg (List.map g) himage
  rw [List.map_map, List.map_map] at hback
  have hid {ws : List β} (hws : ∀ b ∈ ws, b ∈ xs) : ws.map (g ∘ f) = ws :=
    (List.map_congr_left fun b hb => hg b (hws b hb)).trans (List.map_id ws)
  rw [hid fun b hb => hperm.mem_iff.mp (List.mem_of_mem_filter hb),
    hid fun b hb => List.mem_of_mem_filter hb] at hback
  exact hback

end StableMerge

import LibSystemCall.MergeSortMerge

/-! # What the searches of z_mergesort compare

The searches once more, with a log of the elements that are compared with `q` and of the values
that the int `i` takes as an offset. -/
namespace MergeSort

open ByteMemory ElementArray StableMerge

inductive Event where
  | assigned (i : ℕ)
  | compared (p : ℕ)

def logged {α : Type} (es : List Event) (r : Option (α × List Event)) :
    Option (α × List Event) :=
  r.map fun x => (x.1, es ++ x.2)

def withBig (big : Bool) (r : Option (ℕ × List Event)) : Option ((ℕ × Bool) × List Event) :=
  r.map fun x => ((x.1, big), x.2)

section Logged
variable (size : ℕ) (before : ℕ → Bool)

def binaryLogged : ℕ → ℕ → ℕ → Option (ℕ × List Event)
  | 0, _, _ => none
  | k + 1, b, t =>
    if t > b + size then
      let i := (((t - b) / size) >>> 1) * size
      let p := b + i
      logged [.assigned i, .compared p]
        (if ¬ before p then binaryLogged k b p else binaryLogged k p t)
    else some (t, [])

def fastcaseLogged : ℕ → ℕ → ℕ → ℕ → Option (ℕ × List Event)
  | 0, _, _, _ => none
  | k + 1, i, b, t =>
    if i > size then
      let i := i >>> 1
      let p := b + i
      logged [.assigned i, .compared p]
        (if ¬ before p then fastcaseLogged k i b p else fastcaseLogged k i p t)
    else some (t, [])

def exponentialLogged : ℕ → ℕ → ℕ → ℕ → Option ((ℕ × Bool) × List Event)
  | 0, _, _, _ => none
  | k + 1, i, b, t =>
    let p := b + i
    if p ≥ t then
      let p := t - size
      if p > b then
        logged [.assigned i, .compared p]
          (withBig true (if ¬ before p then binaryLogged size before (t - b + 1) b p
            else binaryLogged size before (t - b + 1) p t))
      else
        logged [.assigned i] (withBig true (binaryLogged size before (t - b + 1) p t))
    else
      logged [.assigned i, .compared p]
        (if ¬ before p then
          let big := if i = size then false else true
          withBig big (fastcaseLogged size before (i + 1) i b p)
        else exponentialLogged k (i <<< 1) p t)

/-- Here `i` counts steps and is no offset. -/
def linearLogged : ℕ → ℕ → ℕ → ℕ → Option ((ℕ × Bool) × List Event)
  | 0, _, _, _ => none
  | k + 1, i, b, t =>
    let b := b + size
    if b < t then
      logged [.compared b]
        (if before b then
          let i := i + 1
          if i = 6 then exponentialLogged size before (t - b + 1) size b t
          else linearLogged k i b t
        else some ((b, false), []))
    else some ((b, false), [])

def searchLogged (i : ℕ) (big : Bool) (b t : ℕ) : Option ((ℕ × Bool) × List Event) :=
  if ¬ big then linearLogged size before (t - b + 1) i b t
  else exponentialLogged size before (t - b + 1) size b t

/-- The loop of single steps without the way out after six of them. -/
def stepping : ℕ → ℕ → ℕ → Option ℕ
  | 0, _, _ => none
  | k + 1, b, t =>
    let b := b + size
    if b < t ∧ before b then stepping k b t else some b

end Logged

section Erased
variable {α : Type} {size : ℕ} {before : ℕ → Bool}

theorem logged_fst (es : List Event) (r : Option (α × List Event)) :
    (logged es r).map Prod.fst = r.map Prod.fst := by
  rw [logged, Option.map_map]
  rfl

theorem binaryLogged_fst (fuel b t : ℕ) :
    (binaryLogged size before fuel b t).map Prod.fst = binary size before fuel b t := by
  induction fuel generalizing b t with
  | zero => rfl
  | succ fuel ih =>
    rw [binaryLogged, binary]
    split
    · rw [logged_fst]
      dsimp only
      split
      · exact ih _ _
      · exact ih _ _
    · rfl

theorem fastcaseLogged_fst (fuel i b t : ℕ) :
    (fastcaseLogged size before fuel i b t).map Prod.fst = fastcase size before fuel i b t := by
  induction fuel generalizing i b t with
  | zero => rfl
  | succ fuel ih =>
    rw [fastcaseLogged, fastcase]
    split
    · rw [logged_fst]
      dsimp only
      split
      · exact ih _ _ _
      · exact ih _ _ _
    · rfl

theorem withBig_fst (big : Bool) (r : Option (ℕ × List Event)) :
    (withBig big r).map Prod.fst = (r.map Prod.fst).map (·, big) := by
  rw [withBig, Option.map_map, Option.map_map]
  rfl

theorem exponentialLogged_fst (fuel i b t : ℕ) :
    (exponentialLogged size before fuel i b t).map Prod.fst =
      exponential size before fuel i b t := by
  induction fuel generalizing i b t with
  | zero => rfl
  | succ fuel ih =>
    rw [exponentialLogged, exponential]
    dsimp only
    by_cases hend : b + i ≥ t
    · rw [if_pos hend, if_pos hend]
      by_cases hlast : t - size > b
      · rw [if_pos hlast, logged_fst]
        by_cases hgoes : ¬ before (t - size)
        · rw [if_pos hgoes, if_pos ⟨hlast, hgoes⟩, withBig_fst, binaryLogged_fst]
        · rw [if_neg hgoes, if_neg fun h => hgoes h.2, withBig_fst, binaryLogged_fst]
      · rw [if_neg hlast, if_neg fun h => hlast h.1, logged_fst, withBig_fst, binaryLogged_fst]
    · rw [if_neg hend, if_neg hend, logged_fst]
      by_cases hgoes : ¬ before (b + i)
      · rw [if_pos hgoes, if_pos hgoes, withBig_fst, fastcaseLogged_fst]
      · rw [if_neg hgoes, if_neg hgoes, ih]

theorem linearLogged_fst (fuel i b t : ℕ) :
    (linearLogged size before fuel i b t).map Prod.fst = linear size before fuel i b t := by
  induction fuel generalizing i b t with
  | zero => rfl
  | succ fuel ih =>
    rw [linearLogged, linear]
    dsimp only
    by_cases hend : b + size < t
    · rw [if_pos hend, logged_fst]
      by_cases hgoes : before (b + size)
      · have hon : b + size < t ∧ before (b + size) = true := ⟨hend, hgoes⟩
        rw [if_pos hgoes, if_pos hon]
        split
        · exact exponentialLogged_fst _ _ _ _
        · exact ih _ _ _
      · rw [if_neg hgoes, if_neg fun h => hgoes h.2]
        rfl
    · rw [if_neg hend, if_neg fun h => hend h.1]
      rfl

theorem searchLogged_fst (i : ℕ) (big : Bool) (b t : ℕ) :
    (searchLogged size before i big b t).map Prod.fst = search size before i big b t := by
  unfold searchLogged search
  split
  · exact linearLogged_fst _ _ _ _
  · exact exponentialLogged_fst _ _ _ _

end Erased

/-- A comparison with an element behind the first one, and an offset that is no more than the
bytes of the run: it fits the int as long as these do. -/
def Event.Within (b t : ℕ) : Event → Prop
  | assigned i => i ≤ t - b
  | compared p => b < p ∧ p < t

def Within {α : Type} (b t : ℕ) (r : Option (α × List Event)) : Prop :=
  ∀ x ∈ r, ∀ e ∈ x.2, e.Within b t

section Bounds
variable {α : Type} {size b n : ℕ} {before : ℕ → Bool}

theorem within_none {t : ℕ} : Within b t (none : Option (α × List Event)) := by
  intro x hx
  cases hx

theorem within_result {t : ℕ} (a : α) : Within b t (some (a, [])) := by
  intro x hx e he
  obtain rfl := Option.some.inj hx
  cases he

theorem Within.logged {t : ℕ} {es : List Event} {r : Option (α × List Event)}
    (hes : ∀ e ∈ es, e.Within b t) (hr : Within b t r) : Within b t (logged es r) := by
  intro x hx e he
  obtain ⟨y, hy, rfl⟩ := Option.map_eq_some_iff.mp hx
  rcases List.mem_append.mp he with he | he
  · exact hes e he
  · exact hr y hy e he

theorem Within.withBig {t : ℕ} {r : Option (ℕ × List Event)} (hr : Within b t r) (big : Bool) :
    Within b t (withBig big r) := by
  intro x hx e he
  obtain ⟨y, hy, rfl⟩ := Option.map_eq_some_iff.mp hx
  exact hr y hy e he

theorem within_place {i j : ℕ} (hsize : 0 < size) (hi : i ≤ n * size) (hj : 0 < j ∧ j < n) :
    ∀ e ∈ [.assigned i, .compared (b + j * size)], Event.Within b (b + n * size) e := by
  have hlow := (place_lt (b := b) hsize).mpr hj.1
  have hhigh := (place_lt (b := b) hsize).mpr hj.2
  intro e he
  rcases List.mem_pair.mp he with rfl | rfl
  · rw [Event.Within]
    omega
  · rw [Nat.zero_mul] at hlow
    exact ⟨hlow, hhigh⟩

theorem binaryLogged_within (hsize : 0 < size) {fuel j k : ℕ} (hk : k ≤ n) :
    Within b (b + n * size) (binaryLogged size before fuel (b + j * size) (b + k * size)) := by
  induction fuel generalizing j k with
  | zero => exact within_none
  | succ fuel ih =>
    rw [binaryLogged, place_next, place_sub, Nat.mul_div_cancel _ hsize,
      Nat.shiftRight_eq_div_pow]
    simp only [gt_iff_lt, place_lt hsize, Nat.pow_one, place_add]
    by_cases hmore : j + 1 < k
    · have hhalf : (k - j) / 2 * size ≤ n * size := Nat.mul_le_mul_right _ (by omega)
      rw [if_pos hmore]
      apply Within.logged (within_place hsize hhalf (by omega))
      split
      · exact ih (by omega)
      · exact ih hk
    · rw [if_neg hmore]
      exact within_result _

theorem fastcaseLogged_within (hsize : 0 < size) {fuel e j : ℕ} (hn : j + 2 ^ e ≤ n) :
    Within b (b + n * size)
      (fastcaseLogged size before fuel (2 ^ e * size) (b + j * size)
        (b + (j + 2 ^ e) * size)) := by
  induction fuel generalizing e j with
  | zero => exact within_none
  | succ fuel ih =>
    rw [fastcaseLogged]
    cases e with
    | zero =>
      rw [if_neg (by simp)]
      exact within_result _
    | succ e =>
      have hpow : 2 ^ (e + 1) = 2 ^ e + 2 ^ e := by omega
      have hpos : 0 < 2 ^ e := Nat.two_pow_pos e
      have hoffset : 2 ^ e * size ≤ n * size := Nat.mul_le_mul_right _ (by omega)
      have hhalf : (2 ^ (e + 1) * size) >>> 1 = 2 ^ e * size := by
        rw [Nat.shiftRight_eq_div_pow, Nat.pow_succ', Nat.mul_assoc, Nat.pow_one,
          Nat.mul_div_cancel_left _ (by decide)]
      have hend : j + 2 ^ (e + 1) = j + 2 ^ e + 2 ^ e := by omega
      split
      · rw [hhalf]
        simp only [place_add]
        apply Within.logged (within_place hsize hoffset (by omega))
        split
        · exact ih (by omega)
        · rw [hend]
          exact ih (by omega)
      · exact within_result _

theorem exponentialLogged_within (hsize : 0 < size) {fuel e j : ℕ} (hj : j < n)
    (he : 2 ^ e ≤ j + 1) :
    Within b (b + n * size)
      (exponentialLogged size before fuel (2 ^ e * size) (b + j * size) (b + n * size)) := by
  induction fuel generalizing e j with
  | zero => exact within_none
  | succ fuel ih =>
    have hpos : 0 < 2 ^ e := Nat.two_pow_pos e
    have hoffset : 2 ^ e * size ≤ n * size := Nat.mul_le_mul_right _ (by omega)
    rw [exponentialLogged]
    simp only [place_add, ge_iff_le, gt_iff_lt, place_le hsize, place_lt hsize,
      place_last (show 0 < n by omega)]
    by_cases hend : n ≤ j + 2 ^ e
    · rw [if_pos hend]
      by_cases hlast : j < n - 1
      · rw [if_pos hlast]
        apply Within.logged (within_place hsize hoffset (by omega))
        apply Within.withBig
        split
        · exact binaryLogged_within hsize (by omega)
        · exact binaryLogged_within hsize le_rfl
      · rw [if_neg hlast]
        apply Within.logged
        · intro e he
          obtain rfl := List.mem_singleton.mp he
          rw [Event.Within]
          omega
        · exact (binaryLogged_within hsize le_rfl).withBig true
    · rw [if_neg hend]
      apply Within.logged (within_place hsize hoffset (by omega))
      split
      · exact (fastcaseLogged_within hsize (by omega)).withBig _
      · have hdouble : (2 ^ e * size) <<< 1 = 2 ^ (e + 1) * size := by
          rw [Nat.shiftLeft_eq, Nat.pow_succ]
          ring
        rw [hdouble]
        exact ih (by omega) (by omega)

theorem exponentialLogged_start (hsize : 0 < size) {fuel j : ℕ} (hj : j < n) :
    Within b (b + n * size)
      (exponentialLogged size before fuel size (b + j * size) (b + n * size)) := by
  have h : Within b (b + n * size)
      (exponentialLogged size before fuel (2 ^ 0 * size) (b + j * size) (b + n * size)) :=
    exponentialLogged_within hsize hj (by omega)
  rwa [Nat.pow_zero, Nat.one_mul] at h

theorem linearLogged_within (hsize : 0 < size) {fuel i j : ℕ} (hj : j < n) :
    Within b (b + n * size)
      (linearLogged size before fuel i (b + j * size) (b + n * size)) := by
  induction fuel generalizing i j with
  | zero => exact within_none
  | succ fuel ih =>
    rw [linearLogged, place_next]
    simp only [place_lt hsize]
    by_cases hend : j + 1 < n
    · rw [if_pos hend]
      apply Within.logged
      · intro e he
        have hplace := within_place (b := b) hsize (Nat.zero_le (n * size))
          ⟨Nat.succ_pos j, hend⟩
        obtain rfl := List.mem_singleton.mp he
        exact hplace _ (by simp)
      · split
        · split
          · exact exponentialLogged_start hsize hend
          · exact ih hend
        · exact within_result _
    · rw [if_neg hend]
      exact within_result _

theorem searchLogged_within (hsize : 0 < size) (hn : 0 < n) (i : ℕ) (big : Bool) :
    Within b (b + n * size) (searchLogged size before i big b (b + n * size)) := by
  unfold searchLogged
  split
  · have h : Within b (b + n * size)
        (linearLogged size before (b + n * size - b + 1) i (b + 0 * size) (b + n * size)) :=
      linearLogged_within hsize hn
    rwa [Nat.zero_mul, Nat.add_zero] at h
  · have h : Within b (b + n * size) (exponentialLogged size before (b + n * size - b + 1) size
        (b + 0 * size) (b + n * size)) := exponentialLogged_start hsize hn
    rwa [Nat.zero_mul, Nat.add_zero] at h

end Bounds

section Agreement
variable {cmp : List UInt8 → List UInt8 → ℤ} {size : ℕ} {m : Memory}

theorem stepping_eq {before : ℕ → Bool} {b n c : ℕ} (hsize : 0 < size)
    (hcut : Cut size before b n c) {fuel j : ℕ} (hj : j < c) (hn : c ≤ n) (hfuel : n - j ≤ fuel) :
    stepping size before fuel (b + j * size) (b + n * size) = some (b + c * size) := by
  induction fuel generalizing j with
  | zero => omega
  | succ fuel ih =>
    rw [stepping, place_next]
    simp only [place_lt hsize]
    by_cases hon : j + 1 < n ∧ j + 1 < c
    · rw [if_pos ⟨hon.1, by rw [hcut _ hon.1]; simpa using hon.2⟩]
      exact ih hon.2 (by omega)
    · rw [if_neg fun h => hon ⟨h.1, by simpa [hcut _ h.1] using h.2⟩]
      congr 3
      omega

/-- What the head of the merge loop leaves to the search: in the `n` elements from `b` on, all of
one run, the first one goes before `q`. -/
structure Searching (cmp : List UInt8 → List UInt8 → ℤ) (size : ℕ) (m : Memory) (q b n : ℕ)
    (sense : ℤ) : Prop where
  nonempty : 0 < n
  sorted : Sorted (leOf cmp) (elements size m b n)
  senses : sense = -1 ∨ sense = 0
  known : cmpAt cmp size m q b > sense

theorem searching_of_runs (hcmp : Comparator cmp) {f1 f2 n1 n2 : ℕ} (h1 : 0 < n1) (h2 : 0 < n2)
    (hs1 : Sorted (leOf cmp) (elements size m f1 n1))
    (hs2 : Sorted (leOf cmp) (elements size m f2 n2)) :
    if cmpAt cmp size m f1 f2 ≤ 0 then Searching cmp size m f2 f1 n1 (-1)
    else Searching cmp size m f1 f2 n2 0 := by
  have hopp := hcmp.opposite (load m f1 size) (load m f2 size)
  have hopp' := hcmp.opposite (load m f2 size) (load m f1 size)
  split
  case isTrue hfirst =>
    refine ⟨h1, hs1, .inl rfl, ?_⟩
    unfold cmpAt at *
    omega
  case isFalse hsecond =>
    refine ⟨h2, hs2, .inr rfl, ?_⟩
    omega

theorem Searching.cut {q b n : ℕ} {sense : ℤ} (hcmp : Comparator cmp)
    (h : Searching cmp size m q b n sense) :
    ∃ c, Cut size (fun p => decide (cmpAt cmp size m q p > sense)) b n c ∧ 0 < c ∧ c ≤ n := by
  have hclosed : ∀ a c, leOf cmp a c = true →
      decide (cmp (load m q size) c > sense) = true →
      decide (cmp (load m q size) a > sense) = true := by
    intro a c hac hc
    have htrans := hcmp.trans (load m q size) a c
    have htrans' := hcmp.trans a c (load m q size)
    have hopp := hcmp.opposite (load m q size) a
    have hopp' := hcmp.opposite a (load m q size)
    have hoppc := hcmp.opposite c (load m q size)
    simp only [leOf, decide_eq_true_eq] at hac hc ⊢
    rcases h.senses with rfl | rfl <;> omega
  have hcut := cut_takeWhile q sense (laid_elements m b n) h.sorted hclosed fun _ => rfl
  rw [length_elements] at hcut
  refine ⟨_, hcut, ?_, ?_⟩
  · -- the first element is one of them
    have hfirst := hcut 0 h.nonempty
    rw [Nat.zero_mul, Nat.add_zero] at hfirst
    exact of_decide_eq_true (hfirst.symm.trans (decide_eq_true h.known))
  · exact (List.takeWhile_sublist _).length_le.trans_eq (length_elements m b n)

/-- The place of the single steps, and no comparison outside of the run or with its first
element. -/
def SameAsStepping (size : ℕ) (before : ℕ → Bool) (i : ℕ) (big : Bool) (b t : ℕ) : Prop :=
  ∃ place big' log, stepping size before (t - b + 1) b t = some place ∧
    search size before i big b t = some (place, big') ∧
    searchLogged size before i big b t = some ((place, big'), log) ∧ ∀ e ∈ log, e.Within b t

theorem Cut.sameAsStepping {before : ℕ → Bool} {b n c : ℕ} (hcut : Cut size before b n c)
    (hsize : 0 < size) (hpos : 0 < c) (hn : c ≤ n) (i : ℕ) (big : Bool) :
    SameAsStepping size before i big b (b + n * size) := by
  obtain ⟨big', hsearch⟩ := search_eq hsize hcut hpos hn i big
  have hlogged : (searchLogged size before i big b (b + n * size)).map Prod.fst =
      search size before i big b (b + n * size) := searchLogged_fst i big b (b + n * size)
  rw [hsearch] at hlogged
  obtain ⟨r, hr, hplace⟩ := Option.map_eq_some_iff.mp hlogged
  refine ⟨b + c * size, big', r.2, ?_, hsearch, ?_, ?_⟩
  · have hrounds : n - 0 ≤ b + n * size - b + 1 := by
      have := Nat.le_mul_of_pos_right n hsize
      omega
    have hstep := stepping_eq hsize hcut hpos hn hrounds
    rwa [Nat.zero_mul, Nat.add_zero] at hstep
  · rw [hr, ← hplace]
  · exact searchLogged_within hsize (by omega) i big r hr

/-- For every pair of sorted runs, and for every state in which the first element goes before `q`;
`i` and `big` are what the rounds before have left. -/
structure SearchesStep (cmp : List UInt8 → List UInt8 → ℤ) (size : ℕ) (m : Memory) : Prop where
  runs : ∀ f1 f2 n1 n2, 0 < n1 → 0 < n2 → Sorted (leOf cmp) (elements size m f1 n1) →
    Sorted (leOf cmp) (elements size m f2 n2) →
    if cmpAt cmp size m f1 f2 ≤ 0 then Searching cmp size m f2 f1 n1 (-1)
    else Searching cmp size m f1 f2 n2 0
  same : ∀ q b n sense, Searching cmp size m q b n sense → ∀ i big,
    SameAsStepping size (fun p => decide (cmpAt cmp size m q p > sense)) i big b (b + n * size)

theorem searches_step (hcmp : Comparator cmp) (hsize : 0 < size) (m : Memory) :
    SearchesStep cmp size m := by
  constructor
  · intro f1 f2 n1 n2 h1 h2 hs1 hs2
    exact searching_of_runs hcmp h1 h2 hs1 hs2
  · intro q b n sense h i big
    obtain ⟨c, hcut, hpos, hn⟩ := h.cut hcmp
    exact hcut.sameAsStepping hsize hpos hn i big

/-- The leaps over eight elements of four bytes, compared by their first byte with 5. -/
theorem eight_elements_searched :
    SameAsStepping 4 (fun p => decide (cmpAt (fun a b => (a.headD 0).toNat - (b.headD 0).toNat) 4
      (fun x => UInt8.ofNat (x / 4)) 20 p > -1)) 0 true 0 (0 + 8 * 4) := by
  refine (searches_step ⟨fun a b => ?_, fun a b c hab hbc => ?_⟩ (by decide) _).same 20 0 8 (-1)
    ⟨by decide, by decide, .inl rfl, by decide⟩ 0 true
  · omega
  · omega

end Agreement

end MergeSort

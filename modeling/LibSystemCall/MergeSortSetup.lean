import LibSystemCall.MergeSortPass
import Mathlib.Data.List.Induction

/-! # The first runs of z_mergesort

`z_setup` sorts a tail of four or five elements by insertion and the rest in pairs, and
stores where each of these runs ends. -/
namespace MergeSort

open ByteMemory ElementArray StableMerge StringMemmove StructLayout

variable {cmp : List UInt8 → List UInt8 → ℤ} {size : ℕ} {m m' : Memory}

theorem store_byte (m : Memory) (a : ℕ) (b : UInt8) (x : ℕ) :
    store m a [b] x = if x = a then b else m x := by
  by_cases hx : x = a
  · subst hx
    have h : store m x [b] (x + 0) = [b][0] := store_inside (by simp)
    simpa using h
  · rw [if_neg hx, store_outside (by simp only [List.length_singleton]; omega)]

theorem swapBytes_apply {a s i : ℕ} (hapart : a + i ≤ s ∨ s + i ≤ a) (x : ℕ) :
    swapBytes m a s i x =
      if a ≤ x ∧ x < a + i then m (s + (x - a))
      else if s ≤ x ∧ x < s + i then m (a + (x - s)) else m x := by
  induction i generalizing m a s with
  | zero => rw [if_neg (by omega), if_neg (by omega), swapBytes]
  | succ i ih =>
    rw [swapBytes, ih (by omega)]
    simp only [store_byte]
    by_cases ha : a ≤ x ∧ x < a + (i + 1)
    · rw [if_pos ha]
      by_cases hx : x = a
      · subst hx
        rw [if_neg (by omega), if_neg (by omega), if_neg (by omega), if_pos rfl]
        simp
      · rw [if_pos (by omega), if_neg (by omega), if_neg (by omega)]
        congr 1
        omega
    · rw [if_neg ha, if_neg (by omega)]
      by_cases hs : s ≤ x ∧ x < s + (i + 1)
      · rw [if_pos hs]
        by_cases hx : x = s
        · subst hx
          rw [if_neg (by omega), if_pos rfl]
          simp
        · rw [if_pos (by omega), if_neg (by omega), if_neg (by omega)]
          congr 1
          omega
      · rw [if_neg hs, if_neg (by omega), if_neg (by omega), if_neg (by omega)]

theorem swap_laid {p : ℕ} {u t : List UInt8} (h : Laid size m p [u, t]) :
    Laid size (swap size m p (p + size)) p [t, u] := by
  obtain ⟨hu, ht, -⟩ := h
  refine ⟨?_, ?_, trivial⟩
  · rw [← ht]
    refine load_congr fun i hi => ?_
    rw [swap, swapBytes_apply (.inl le_rfl), if_pos (by omega)]
    congr 1
    omega
  · rw [← hu]
    refine load_congr fun i hi => ?_
    rw [swap, swapBytes_apply (.inl le_rfl), if_neg (by omega), if_pos (by omega)]
    congr 1
    omega

theorem swap_outside {p x : ℕ} (h : x < p ∨ p + 2 * size ≤ x) :
    swap size m p (p + size) x = m x := by
  rw [swap, swapBytes_apply (.inl le_rfl), if_neg (by omega), if_neg (by omega)]

structure Rearranged (cmp : List UInt8 → List UInt8 → ℤ) (size : ℕ) (m m' : Memory) (p : ℕ)
    (es es' : List (List UInt8)) : Prop where
  laid : Laid size m' p es'
  stable : Stable (leOf cmp) es es'
  frame : ∀ x, x < p ∨ p + es.length * size ≤ x → m' x = m x

theorem sink_rearranges (hcmp : Comparator cmp) {a : ℕ} {xs : List (List UInt8)}
    {x : List UInt8} (h : Laid size m a (xs ++ [x])) (hs : Sorted (leOf cmp) xs) :
    ∃ ys, Rearranged cmp size m (sink cmp size m a xs.length) a (xs ++ [x]) ys ∧
      Sorted (leOf cmp) ys := by
  induction xs using List.reverseRecOn generalizing m with
  | nil => exact ⟨[x], ⟨h, .refl _, fun _ _ => rfl⟩, List.pairwise_singleton _ _⟩
  | append_singleton zs u ih =>
    obtain ⟨hzs, -, hzu⟩ := List.pairwise_append.mp hs
    rw [List.append_assoc, laid_append] at h
    have hnext : a + (zs.length + 1) * size = a + zs.length * size + size := by
      rw [Nat.succ_mul, Nat.add_assoc]
    have hcmpAt : cmpAt cmp size m (a + zs.length * size) (a + zs.length * size + size) =
        cmp u x := by
      rw [cmpAt, h.2.1, h.2.2.1]
    rw [List.length_append, List.length_singleton, sink]
    simp only [hnext, Nat.add_sub_cancel, hcmpAt]
    by_cases hux : cmp u x ≤ 0
    · rw [if_pos hux]
      refine ⟨zs ++ [u] ++ [x], ⟨?_, .refl _, fun _ _ => rfl⟩, ?_⟩
      · rw [List.append_assoc, laid_append]
        exact h
      · refine List.pairwise_append.mpr ⟨hs, List.pairwise_singleton _ _, fun b hb c hc => ?_⟩
        have hxu : leOf cmp u x = true := by simpa [leOf] using hux
        rw [List.mem_singleton.mp hc]
        rcases List.mem_append.mp hb with hb | hb
        · exact hcmp.preorder.trans b u x (hzu b hb u (by simp)) hxu
        · rwa [List.mem_singleton.mp hb]
    · rw [if_neg hux]
      have hnot : ¬ leOf cmp u x = true := by simpa [leOf] using hux
      have hxu := le_of_not_le hcmp.preorder hnot
      have hpair := swap_laid (p := a + zs.length * size) h.2
      have hsame : ∀ y, y < a + zs.length * size ∨ a + zs.length * size + 2 * size ≤ y →
          swap size m (a + zs.length * size) (a + zs.length * size + size) y = m y :=
        fun y hy => swap_outside hy
      generalize swap size m (a + zs.length * size) (a + zs.length * size + size) = m₁ at *
      have hzx : Laid size m₁ a (zs ++ [x]) :=
        laid_append.mpr ⟨h.1.congr fun y _ hy => hsame y (.inl hy), hpair.1, trivial⟩
      obtain ⟨ys, hys, hsorted⟩ := ih hzx hzs
      have hlen : ys.length = zs.length + 1 := by simpa using hys.stable.length_eq
      have hframe := hys.frame
      simp only [List.length_append, List.length_singleton, hnext] at hframe
      refine ⟨ys ++ [u], ⟨laid_append.mpr ⟨hys.laid, ?_⟩, ?_, fun y hy => ?_⟩, ?_⟩
      · rw [hlen, hnext]
        have hlast : Laid size m₁ _ [u] := ⟨hpair.2.1, trivial⟩
        exact hlast.congr fun y hy _ => hframe y (.inr hy)
      · have hexchange : Stable (leOf cmp) (zs ++ [u, x]) (zs ++ [x, u]) :=
          (Stable.refl zs).append (stable_swap hcmp.preorder hnot)
        have hsunk := hys.stable.append (Stable.refl [u])
        simp only [List.append_assoc, List.singleton_append] at hsunk ⊢
        exact hexchange.trans hsunk
      · simp only [List.length_append, List.length_singleton, Nat.add_mul] at hy
        rw [hframe y (by omega), hsame y (by omega)]
      · refine List.pairwise_append.mpr ⟨hsorted, List.pairwise_singleton _ _, fun b hb c hc => ?_⟩
        rw [List.mem_singleton.mp hc]
        rcases List.mem_append.mp (hys.stable.perm.mem_iff.mp hb) with hb | hb
        · exact hzu b hb u (by simp)
        · rwa [List.mem_singleton.mp hb]

theorem insertUpTo_sorts (hcmp : Comparator cmp) {a j : ℕ} {xs : List (List UInt8)}
    (h : Laid size m a xs) (hlen : xs.length = j + 1) :
    ∃ ys, Rearranged cmp size m (insertUpTo cmp size m a j) a xs ys ∧
      Sorted (leOf cmp) ys := by
  induction j generalizing xs with
  | zero =>
    obtain ⟨x, rfl⟩ := List.length_eq_one_iff.mp hlen
    exact ⟨[x], ⟨h, .refl _, fun _ _ => rfl⟩, List.pairwise_singleton _ _⟩
  | succ j ih =>
    rcases List.eq_nil_or_concat' xs with rfl | ⟨zs, x, rfl⟩
    · simp at hlen
    have hzlen : zs.length = j + 1 := by simpa using hlen
    obtain ⟨hz, hx⟩ := laid_append.mp h
    obtain ⟨ys, hys, hsorted⟩ := ih hz hzlen
    have hylen := hys.stable.length_eq
    have hyx : Laid size (insertUpTo cmp size m a j) a (ys ++ [x]) := by
      refine laid_append.mpr ⟨hys.laid, ?_⟩
      rw [hylen]
      exact hx.congr fun y hy _ => hys.frame y (.inr hy)
    obtain ⟨vs, hvs, hsorted'⟩ := sink_rearranges hcmp hyx hsorted
    rw [hylen, hzlen] at hvs
    refine ⟨vs, ⟨hvs.laid, (hys.stable.append (.refl [x])).trans hvs.stable, fun y hy => ?_⟩,
      hsorted'⟩
    simp only [List.length_append, List.length_singleton, Nat.add_mul] at hy
    rw [insertUpTo, hvs.frame y (by
      simp only [List.length_append, List.length_singleton, Nat.add_mul, hylen]
      omega), hys.frame y (by omega)]

theorem zInsertionsort_sorts (hcmp : Comparator cmp) {a : ℕ} {xs : List (List UInt8)}
    (h : Laid size m a xs) (hpos : 0 < xs.length) :
    ∃ ys, Rearranged cmp size m (zInsertionsort cmp size m a xs.length) a xs ys ∧
      Sorted (leOf cmp) ys := by
  obtain ⟨j, hj⟩ := Nat.exists_eq_add_of_le' hpos
  rw [zInsertionsort, hj, Nat.add_sub_cancel]
  exact insertUpTo_sorts hcmp h hj

theorem pair_sorts (hcmp : Comparator cmp) {f1 : ℕ} {u t : List UInt8}
    (h : Laid size m f1 [u, t]) :
    ∃ r, Rearranged cmp size m
      (if cmpAt cmp size m f1 (f1 + size) > 0 then swap size m f1 (f1 + size) else m)
      f1 [u, t] r ∧ Sorted (leOf cmp) r := by
  have hut : cmpAt cmp size m f1 (f1 + size) = cmp u t := by rw [cmpAt, h.1, h.2.1]
  rw [hut]
  by_cases hgt : cmp u t > 0
  · have hnot : ¬ leOf cmp u t = true := by simpa [leOf] using hgt
    rw [if_pos hgt]
    refine ⟨[t, u], ⟨swap_laid h, stable_swap hcmp.preorder hnot, fun x hx => ?_⟩, ?_⟩
    · exact swap_outside hx
    · exact List.pairwise_pair.mpr (le_of_not_le hcmp.preorder hnot)
  · rw [if_neg hgt]
    refine ⟨[u, t], ⟨h, .refl _, fun _ _ => rfl⟩, List.pairwise_pair.mpr ?_⟩
    simpa [leOf] using hgt

theorem EVAL_add {p d : ℕ} (hd : 8 ≤ d) : EVAL p + 8 ≤ EVAL (p + d) := by
  unfold EVAL alignUp PSIZE
  omega

theorem EVAL_mono {p q : ℕ} (h : p ≤ q) : EVAL p ≤ EVAL q := by
  unfold EVAL alignUp PSIZE
  omega

/-- The `2 * k` elements `es` at `f1` have become `runs`, with their ends stored from `p2`. -/
structure Paired (cmp : List UInt8 → List UInt8 → ℤ) (size : ℕ) (m m' : Memory) (f1 p2 k : ℕ)
    (es : List (List UInt8)) (runs : List Run) : Prop where
  laid : Laid size m' f1 runs.flatten
  chain : Chain size m' p2 runs
  each : ∀ r ∈ runs, r.length = 2
  sorted : ∀ r ∈ runs, Sorted (leOf cmp) r
  stable : Stable (leOf cmp) es runs.flatten
  frame : ∀ x, (x < f1 ∨ f1 + 2 * k * size ≤ x) → (x < EVAL p2 ∨ EVAL (p2 + 2 * k * size) ≤ x) →
    m' x = m x

theorem two_more (k size : ℕ) : 2 * (k + 1) * size = size * 2 + 2 * k * size := by
  rw [Nat.mul_add, Nat.add_mul, Nat.mul_comm size, Nat.add_comm]

theorem Paired.cons (hsize : 4 ≤ size) {m₁ m₂ : Memory} {f1 p2 k : ℕ} {u t : List UInt8}
    {rest : List (List UInt8)} {r : Run} {runs : List Run}
    (hfits : p2 + 2 * (k + 1) * size < 2 ^ 64)
    (hapart : f1 + 2 * (k + 1) * size ≤ p2 ∨ p2 + 2 * (k + 1) * size + 8 ≤ f1)
    (hr : Rearranged cmp size (storePtr m (EVAL p2) (p2 + size * 2)) m₁ f1 [u, t] r)
    (hsorted : Sorted (leOf cmp) r)
    (hruns : Paired cmp size m₁ m₂ (f1 + size * 2) (p2 + size * 2) k rest runs) :
    Paired cmp size m m₂ f1 p2 (k + 1) (u :: t :: rest) (r :: runs) := by
  rw [two_more] at hfits hapart
  have hlo := le_EVAL p2
  have hslot := EVAL_add (p := p2) (show 8 ≤ size * 2 by omega)
  have hgrow := EVAL_mono (Nat.le_add_right (p2 + size * 2) (2 * k * size))
  have hend := EVAL_lt (p2 + size * 2 + 2 * k * size)
  have hr2 : r.length = 2 := hr.stable.length_eq
  have hframe := hr.frame
  simp only [List.length_cons, List.length_nil, Nat.mul_comm _ size] at hframe
  refine ⟨?_, ⟨?_, ?_⟩, ?_, ?_, ?_, ?_⟩
  · refine laid_append.mpr ⟨hr.laid.congr fun x hx hx' => ?_, ?_⟩
    · rw [hr2] at hx'
      exact hruns.frame x (by omega) (by omega)
    · rw [hr2, Nat.mul_comm]
      exact hruns.laid
  · have hkept : loadPtr m₂ (EVAL p2) = loadPtr m₁ (EVAL p2) :=
      loadPtr_congr fun x hx hx' => hruns.frame x (by omega) (by omega)
    have hstore : loadPtr m₁ (EVAL p2) =
        loadPtr (storePtr m (EVAL p2) (p2 + size * 2)) (EVAL p2) :=
      loadPtr_congr fun x hx hx' => hframe x (by omega)
    rw [hkept, hstore, loadPtr_storePtr (by omega), hr2, Nat.mul_comm]
  · rw [hr2, Nat.mul_comm 2]
    exact hruns.chain
  · intro s hs
    rcases List.mem_cons.mp hs with rfl | hs
    · exact hr2
    · exact hruns.each s hs
  · intro s hs
    rcases List.mem_cons.mp hs with rfl | hs
    · exact hsorted
    · exact hruns.sorted s hs
  · exact hr.stable.append hruns.stable
  · rw [two_more]
    intro x hx hx'
    rw [← Nat.add_assoc] at hx'
    rw [hruns.frame x (by omega) (by omega), hframe x (by omega), storePtr_outside (by omega)]

theorem setupPairs_paired (hcmp : Comparator cmp) (hsize : 4 ≤ size) {f1 p2 k : ℕ}
    {es : List (List UInt8)} (h : Laid size m f1 es) (hlen : es.length = 2 * k)
    (hfits : p2 + 2 * k * size < 2 ^ 64)
    (hapart : f1 + 2 * k * size ≤ p2 ∨ p2 + 2 * k * size + 8 ≤ f1) :
    ∃ runs, Paired cmp size m (setupPairs cmp size m f1 p2 k) f1 p2 k es runs := by
  induction k generalizing m f1 p2 es with
  | zero =>
    rw [List.eq_nil_of_length_eq_zero hlen]
    exact ⟨[], trivial, trivial, by simp, by simp, .refl _, fun _ _ _ => rfl⟩
  | succ k ih =>
    obtain ⟨u, t, rest, rfl⟩ : ∃ u t rest, es = u :: t :: rest := by
      match es with
      | u :: t :: rest => exact ⟨u, t, rest, rfl⟩
      | [_] => simp at hlen; omega
      | [] => simp at hlen
    have hrest : rest.length = 2 * k := by
      simp only [List.length_cons] at hlen
      omega
    have hbytes := two_more k size
    have hlo := le_EVAL p2
    have hend := EVAL_lt p2
    have hstored : Laid size (storePtr m (EVAL p2) (p2 + size * 2)) f1 ([u, t] ++ rest) := by
      refine Laid.congr (m := m) h fun x hx hx' => storePtr_outside ?_
      rw [List.length_append, hrest, Nat.add_mul] at hx'
      simp only [List.length_cons, List.length_nil] at hx'
      omega
    obtain ⟨hut, htail⟩ := laid_append.mp hstored
    obtain ⟨r, hr, hsorted⟩ := pair_sorts hcmp hut
    have hframe := hr.frame
    rw [setupPairs]
    generalize (if cmpAt cmp size (storePtr m (EVAL p2) (p2 + size * 2)) f1 (f1 + size) > 0 then
      swap size (storePtr m (EVAL p2) (p2 + size * 2)) f1 (f1 + size)
      else storePtr m (EVAL p2) (p2 + size * 2)) = m₁ at *
    simp only [List.length_cons, List.length_nil, Nat.mul_comm _ size] at htail hframe
    have hnext : Laid size m₁ (f1 + size * 2) rest :=
      htail.congr fun x hx _ => hframe x (.inr hx)
    obtain ⟨runs, hruns⟩ := ih hnext hrest
      (show p2 + size * 2 + 2 * k * size < 2 ^ 64 by omega) (by omega)
    exact ⟨r :: runs, .cons hsize hfits hapart hr hsorted hruns⟩

/-- The array of `n` elements and the block of `n * size + PSIZE` bytes that `z_malloc` has
mapped: neither wraps, they do not overlap, and the block starts on a page. -/
structure SortBlocks (size n base buf : ℕ) : Prop where
  width : 4 ≤ size
  small : n * size + 8 < 2 ^ 30
  fitsBase : base + n * size < 2 ^ 64
  fitsBuf : buf + n * size + 8 < 2 ^ 64
  aligned : 8 ∣ buf
  apart : base + n * size ≤ buf ∨ buf + n * size + 8 ≤ base

theorem SortBlocks.lists {n base buf : ℕ} (h : SortBlocks size n base buf) :
    Lists size n base buf := by
  have := h.fitsBuf
  have := h.apart
  exact ⟨h.width, h.fitsBase, by omega, by omega⟩

theorem EVAL_aligned {p : ℕ} (h : 8 ∣ p) : EVAL p = p := by
  unfold EVAL alignUp PSIZE
  omega

/-- Only bytes of the block, of the array and of the word behind the array may differ. -/
def SameOutsideBlocks (size n base buf : ℕ) (m m' : Memory) : Prop :=
  ∀ x, (x < base ∨ base + n * size + wsize ≤ x) → (x < buf ∨ buf + n * size + 8 ≤ x) →
    m' x = m x

theorem SameOutside.blocks {n base buf : ℕ} (h : SameOutside size n base buf m m') :
    SameOutsideBlocks size n base buf m m' := fun x h1 h2 => h x (by omega) (by omega)

theorem zSetup_short (hcmp : Comparator cmp) {n base buf : ℕ} (h : SortBlocks size n base buf)
    (hpos : 0 < n) (hn : n ≤ 5) :
    ∃ runs, Sorting cmp size n (elements size m base n) runs
      ⟨zSetup cmp size m base buf n, base, buf, 0, false⟩ ∧
      SameOutsideBlocks size n base buf m (zSetup cmp size m base buf n) := by
  have hfits := h.fitsBuf
  have hapart := h.apart
  have hlaid : Laid size m base (elements size m base n) := laid_elements m base n
  obtain ⟨ys, hys, hsorted⟩ := zInsertionsort_sorts hcmp hlaid (by simpa using hpos)
  have hlen := hys.stable.length_eq
  rw [length_elements] at hys hlen
  have hsetup : zSetup cmp size m base buf n =
      storePtr (zInsertionsort cmp size m base n) buf (buf + n * size) := by
    rw [zSetup, if_pos hn, EVAL_aligned h.aligned]
  have hframe := hys.frame
  rw [length_elements] at hframe
  refine ⟨[ys], ⟨h.lists, ?_, ⟨?_, trivial⟩, by simpa using hsorted, by simpa using hys.stable,
    by simpa using hlen, .inl rfl⟩, fun x h1 h2 => ?_⟩
  · simp only [List.flatten_singleton, hsetup]
    refine hys.laid.congr fun x hx hx' => storePtr_outside ?_
    rw [hlen] at hx'
    omega
  · simp only [hsetup]
    rw [EVAL_aligned h.aligned, loadPtr_storePtr (by omega), hlen]
  · rw [hsetup, storePtr_outside (by omega), hframe x (by omega)]

theorem Paired.append {n base buf k : ℕ} {m₁ m₃ : Memory} {front tail : List (List UInt8)}
    {runs : List Run} {ys : Run} (h : SortBlocks size n base buf)
    (hn : n = front.length + tail.length) (hfront : front.length = 2 * k) (hfour : 4 ≤ tail.length)
    (hys : Rearranged cmp size m m₁ (base + 2 * k * size) tail ys)
    (hruns : Paired cmp size (storePtr m₁ (EVAL (buf + 2 * k * size)) (buf + n * size)) m₃ base
      buf k front runs) :
    Laid size m₃ base (runs ++ [ys]).flatten ∧ Chain size m₃ buf (runs ++ [ys]) ∧
      SameOutsideBlocks size n base buf m m₃ := by
  have hfits := h.fitsBuf
  have hapart := h.apart
  have hbytes : n * size = 2 * k * size + tail.length * size := by rw [hn, hfront, Nat.add_mul]
  have htail : 4 * 4 ≤ tail.length * size := Nat.mul_le_mul hfour h.width
  have hslot := EVAL_lt (buf + 2 * k * size)
  have hslot' := le_EVAL (buf + 2 * k * size)
  have hstart := EVAL_aligned h.aligned
  have hlen := hys.stable.length_eq
  have hframe := hys.frame
  have hflat : runs.flatten.length = 2 * k := by rw [hruns.stable.length_eq, hfront]
  refine ⟨?_, ?_, ?_⟩
  · rw [List.flatten_append, List.flatten_singleton, laid_append, hflat]
    refine ⟨hruns.laid, hys.laid.congr ?_⟩
    intro x hx hx'
    rw [hlen] at hx'
    rw [hruns.frame x (.inr hx) (by omega), storePtr_outside (by omega)]
  · refine chain_append.mpr ⟨hruns.chain, ?_, trivial⟩
    have hkept : loadPtr m₃ (EVAL (buf + 2 * k * size)) =
        loadPtr (storePtr m₁ (EVAL (buf + 2 * k * size)) (buf + n * size))
          (EVAL (buf + 2 * k * size)) :=
      loadPtr_congr fun x hx hx' => hruns.frame x (by omega) (.inr hx)
    rw [hflat, hlen, hkept, loadPtr_storePtr (by omega), hbytes, Nat.add_assoc]
  · intro x h1 h2
    rw [hruns.frame x (by omega) (by omega), storePtr_outside (by omega), hframe x (by omega)]

theorem zSetup_long (hcmp : Comparator cmp) {n base buf : ℕ} (h : SortBlocks size n base buf)
    (hn : ¬ n ≤ 5) :
    ∃ runs, Sorting cmp size n (elements size m base n) runs
      ⟨zSetup cmp size m base buf n, base, buf, 0, false⟩ ∧
      SameOutsideBlocks size n base buf m (zSetup cmp size m base buf n) := by
  have hfits := h.fitsBuf
  have hapart := h.apart
  obtain ⟨i, hi⟩ : ∃ i, i = 4 + n % 2 := ⟨_, rfl⟩
  obtain ⟨k, hk⟩ : ∃ k, n = 2 * k + i := ⟨(n - i) / 2, by omega⟩
  have hbytes : n * size = 2 * k * size + i * size := by rw [hk, Nat.add_mul]
  have htail : 4 * 4 ≤ i * size := Nat.mul_le_mul (by omega) h.width
  have hslot := EVAL_lt (buf + 2 * k * size)
  have hslot' := le_EVAL (buf + 2 * k * size)
  -- the tail, and its slot
  have hlast : Laid size m (base + 2 * k * size) (elements size m (base + 2 * k * size) i) :=
    laid_elements m _ i
  have hcount : (elements size m (base + 2 * k * size) i).length = i := length_elements _ _ _
  obtain ⟨ys, hys, hsorted⟩ := zInsertionsort_sorts hcmp hlast (by omega)
  have hframe := hys.frame
  have hlen := hys.stable.length_eq
  rw [hcount] at hys hframe hlen
  -- the pairs
  have hfront : Laid size (storePtr (zInsertionsort cmp size m (base + 2 * k * size) i)
      (EVAL (buf + 2 * k * size)) (buf + n * size)) base (elements size m base (2 * k)) := by
    apply (laid_elements m base (2 * k)).congr
    intro x hx hx'
    rw [length_elements] at hx'
    rw [storePtr_outside (by omega), hframe x (.inl hx')]
  obtain ⟨runs, hruns⟩ := setupPairs_paired hcmp h.width hfront (length_elements m base (2 * k))
    (show buf + 2 * k * size < 2 ^ 64 by omega) (by omega)
  have hsetup : zSetup cmp size m base buf n = setupPairs cmp size
      (storePtr (zInsertionsort cmp size m (base + 2 * k * size) i) (EVAL (buf + 2 * k * size))
        (buf + n * size)) base buf k := by
    have hbefore : n - i = 2 * k := by omega
    have hslots : buf + (base + size * (2 * k) - base) = buf + 2 * k * size := by
      rw [Nat.mul_comm size]
      omega
    rw [zSetup, if_neg hn, ← hi]
    simp only [hbefore, hslots, Nat.mul_div_cancel_left k Nat.two_pos]
  rw [hsetup]
  obtain ⟨hlaid, hchain, hsame⟩ := Paired.append h
    (by rw [hcount, length_elements]; exact hk) (length_elements _ _ _)
    (by rw [hcount]; omega) hys hruns
  have hflat : runs.flatten.length = 2 * k := by
    rw [hruns.stable.length_eq, length_elements]
  refine ⟨runs ++ [ys], ⟨h.lists, hlaid, hchain, ?_, ?_, ?_, .inr ⟨?_, ?_⟩⟩, hsame⟩
  · intro r hr
    rcases List.mem_append.mp hr with hr | hr
    · exact hruns.sorted r hr
    · rwa [List.mem_singleton.mp hr]
  · rw [hk, elements_add, List.flatten_append, List.flatten_singleton]
    exact hruns.stable.append hys.stable
  · rw [List.flatten_append, List.flatten_singleton, List.length_append, hflat, hlen, hk]
  · intro r hr
    rcases List.mem_append.mp hr with hr | hr
    · exact (hruns.each r hr).ge
    · rw [List.mem_singleton.mp hr]
      omega
  · intro r hr
    rw [List.getLast?_concat, Option.mem_some] at hr
    rw [← hr]
    omega

theorem zSetup_sorting (hcmp : Comparator cmp) {n base buf : ℕ} (h : SortBlocks size n base buf)
    (hpos : 0 < n) :
    ∃ runs, Sorting cmp size n (elements size m base n) runs
      ⟨zSetup cmp size m base buf n, base, buf, 0, false⟩ ∧
      SameOutsideBlocks size n base buf m (zSetup cmp size m base buf n) := by
  by_cases hn : n ≤ 5
  · exact zSetup_short hcmp h hpos hn
  · exact zSetup_long hcmp h hn

end MergeSort

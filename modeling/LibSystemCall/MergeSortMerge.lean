import LibSystemCall.MergeSortSearch
import LibSystemCall.StableMerge

/-! # Merging two runs

What is copied is a stretch of one run and then the element `q` of the other; all of it
together is the stable merge of the two runs. -/
namespace MergeSort

open ByteMemory ElementArray StableMerge StringMemmove

structure Comparator (cmp : List UInt8 → List UInt8 → ℤ) : Prop where
  opposite : ∀ a b, 0 < cmp a b ↔ cmp b a < 0
  trans : ∀ a b c, cmp a b ≤ 0 → cmp b c ≤ 0 → cmp a c ≤ 0

def leOf (cmp : List UInt8 → List UInt8 → ℤ) (a b : List UInt8) : Bool := cmp a b ≤ 0

variable {cmp : List UInt8 → List UInt8 → ℤ} {size w : ℕ} {m m' : Memory}

theorem Comparator.preorder (h : Comparator cmp) : TotalPreorder (leOf cmp) where
  total a b := by
    have := h.opposite a b
    simp only [leOf, decide_eq_true_eq]
    omega
  trans a b c := by simpa [leOf] using h.trans a b c

theorem copyWord_eq (w : ℕ) (m : Memory) (d s : ℕ) :
    copyWord w ⟨m, d, s⟩ = ⟨moveBytes m d s w, d + w, s + w⟩ := by
  have hbytes : 8 * w / 8 = w := Nat.mul_div_cancel_left w (by decide)
  rw [copyWord, storeWord_loadWord _ _ _ _ _ (by omega), hbytes]
  rfl

theorem copyList_eq (hw : 0 < w) {k fuel d s : ℕ} (hfuel : k < fuel)
    (hapart : s + (k + 1) * w ≤ d ∨ d + (k + 1) * w ≤ s) :
    copyList w (s + (k + 1) * w) fuel ⟨m, d, s⟩ =
      some ⟨moveBytes m d s ((k + 1) * w), d + (k + 1) * w, s + (k + 1) * w⟩ := by
  induction k generalizing fuel m d s with
  | zero =>
    obtain ⟨fuel, rfl⟩ := Nat.exists_eq_add_of_le' hfuel
    rw [copyList, copyWord_eq]
    simp
  | succ k ih =>
    obtain ⟨fuel, rfl⟩ := Nat.exists_eq_add_of_le' (show 1 ≤ fuel by omega)
    have hsplit : (k + 1 + 1) * w = w + (k + 1) * w := by ring
    have hword : 1 * w ≤ (k + 1) * w := Nat.mul_le_mul_right w (by omega)
    rw [copyList, copyWord_eq]
    simp only
    rw [if_pos (by omega), hsplit, ← Nat.add_assoc s, ih (by omega) (by omega),
      moveBytes_add (by omega), Nat.add_assoc d]

theorem copyElt_eq (hw : 0 < w) {k fuel d s : ℕ} (hfuel : k < fuel)
    (hapart : s + (k + 1) * w ≤ d ∨ d + (k + 1) * w ≤ s) :
    copyElt w fuel ((k + 1) * w) ⟨m, d, s⟩ =
      some ⟨moveBytes m d s ((k + 1) * w), d + (k + 1) * w, s + (k + 1) * w⟩ := by
  induction k generalizing fuel m d s with
  | zero =>
    obtain ⟨fuel, rfl⟩ := Nat.exists_eq_add_of_le' hfuel
    rw [copyElt, copyWord_eq]
    simp
  | succ k ih =>
    obtain ⟨fuel, rfl⟩ := Nat.exists_eq_add_of_le' (show 1 ≤ fuel by omega)
    have hsplit : (k + 1 + 1) * w = w + (k + 1) * w := by ring
    have hword : 1 * w ≤ (k + 1) * w := Nat.mul_le_mul_right w (by omega)
    rw [copyElt, copyWord_eq, hsplit]
    simp only [Nat.add_sub_cancel_left]
    rw [if_pos (by omega), ih (by omega) (by omega), moveBytes_add (by omega), Nat.add_assoc,
      Nat.add_assoc]

/-! Output: elements appended at `tp2`, and nothing else changed. -/

structure Emitted (size : ℕ) (m : Memory) (tp2 : ℕ) (m' : Memory) (tp2' : ℕ)
    (chunk : List (List UInt8)) : Prop where
  laid : Laid size m' tp2 chunk
  next : tp2' = tp2 + chunk.length * size
  frame : ∀ x, x < tp2 ∨ tp2' ≤ x → m' x = m x

theorem Emitted.trans {a b c : ℕ} {m'' : Memory} {xs ys : List (List UInt8)}
    (h : Emitted size m a m' b xs) (k : Emitted size m' b m'' c ys) :
    Emitted size m a m'' c (xs ++ ys) := by
  have hnext := h.next
  have hnext' := k.next
  refine ⟨laid_append.mpr ⟨?_, h.next ▸ k.laid⟩, ?_, fun x hx => ?_⟩
  · exact h.laid.congr fun x _ hx => k.frame x (by omega)
  · rw [List.length_append, Nat.add_mul]
    omega
  · rw [k.frame x (by omega), h.frame x (by omega)]

theorem emitted_move {xs : List (List UInt8)} {d s : ℕ} (h : Laid size m s xs) :
    Emitted size m d (moveBytes m d s (xs.length * size)) (d + xs.length * size) xs := by
  refine ⟨h.copy fun i hi => ?_, rfl, fun x hx => ?_⟩
  · rw [moveBytes_apply, if_pos (by omega)]
    congr 1
    omega
  · rw [moveBytes_apply, if_neg (by omega)]

theorem words_of_bytes (hw : w ∣ size) (hsize : 0 < size) {n : ℕ} (hn : 0 < n) :
    0 < w ∧ ∃ k, n * size = (k + 1) * w ∧ k < n * size := by
  have hpos : 0 < w := Nat.pos_of_dvd_of_pos hw hsize
  obtain ⟨c, hc⟩ := hw.mul_left n
  have hbytes : 0 < n * size := Nat.mul_pos hn hsize
  have hcpos : 1 ≤ c := by
    rcases Nat.eq_zero_or_pos c with rfl | hc'
    · omega
    · exact hc'
  obtain ⟨k, rfl⟩ := Nat.exists_eq_add_of_le' hcpos
  have hk : k + 1 ≤ w * (k + 1) := Nat.le_mul_of_pos_left _ hpos
  exact ⟨hpos, k, by rw [hc, Nat.mul_comm], by omega⟩

theorem copyList_run (hw : w ∣ size) (hsize : 0 < size) {n d s : ℕ} (hn : 0 < n)
    (hapart : s + n * size ≤ d ∨ d + n * size ≤ s) :
    copyList w (s + n * size) (s + n * size - s + 1) ⟨m, d, s⟩ =
      some ⟨moveBytes m d s (n * size), d + n * size, s + n * size⟩ := by
  obtain ⟨hpos, k, hk, hlt⟩ := words_of_bytes hw hsize hn
  rw [hk] at hapart hlt ⊢
  exact copyList_eq hpos (by omega) hapart

theorem copyElt_run (hw : w ∣ size) (hsize : 0 < size) {d s : ℕ}
    (hapart : s + size ≤ d ∨ d + size ≤ s) :
    copyElt w (size + 1) size ⟨m, d, s⟩ = some ⟨moveBytes m d s size, d + size, s + size⟩ := by
  obtain ⟨hpos, k, hk, hlt⟩ := words_of_bytes hw hsize Nat.one_pos
  rw [Nat.one_mul] at hk hlt
  have h := copyElt_eq (m := m) hpos (show k < size + 1 by omega) (hk ▸ hapart)
  rwa [← hk] at h

theorem emit_stretch (hw : w ∣ size) (hsize : 0 < size) {xs : List (List UInt8)}
    {e : List UInt8} {d s q : ℕ} (hxs : Laid size m s xs) (hne : 0 < xs.length)
    (he : load m q size = e)
    (hs : s + xs.length * size ≤ d ∨ d + (xs.length + 1) * size ≤ s)
    (hq : q + size ≤ d ∨ d + (xs.length + 1) * size ≤ q) :
    ∃ m₁ m₂,
      copyList w (s + xs.length * size) (s + xs.length * size - s + 1) ⟨m, d, s⟩ =
        some ⟨m₁, d + xs.length * size, s + xs.length * size⟩ ∧
      copyElt w (size + 1) size ⟨m₁, d + xs.length * size, q⟩ =
        some ⟨m₂, d + (xs.length + 1) * size, q + size⟩ ∧
      Emitted size m d m₂ (d + (xs.length + 1) * size) (xs ++ [e]) := by
  have hsucc : (xs.length + 1) * size = xs.length * size + size := Nat.succ_mul _ _
  have hrun := emitted_move (d := d) hxs
  refine ⟨_, moveBytes (moveBytes m d s (xs.length * size)) (d + xs.length * size) q size,
    copyList_run hw hsize hne (by omega), ?_, ?_⟩
  · rw [hsucc, ← Nat.add_assoc]
    exact copyElt_run hw hsize (by omega)
  · have hq' : Laid size (moveBytes m d s (xs.length * size)) q [e] := by
      refine ⟨?_, trivial⟩
      rw [← he]
      exact load_congr fun i hi => hrun.frame _ (by omega)
    have helt := emitted_move (d := d + xs.length * size) hq'
    simp only [List.length_singleton, Nat.one_mul] at helt
    rw [hsucc, ← Nat.add_assoc]
    exact hrun.trans helt

/-! The two runs while they are merged: what is left of each, apart from the output. -/

structure Merging (size : ℕ) (m : Memory) (f1 f2 tp2 : ℕ) (xs ys : List (List UInt8)) :
    Prop where
  left : Laid size m f1 xs
  right : Laid size m f2 ys
  ordered : f1 + xs.length * size ≤ f2
  leftApart :
    f1 + xs.length * size ≤ tp2 ∨ tp2 + (xs.length + ys.length) * size ≤ f1
  rightApart :
    f2 + ys.length * size ≤ tp2 ∨ tp2 + (xs.length + ys.length) * size ≤ f2

theorem Merging.rest {f1 f2 tp2 tp2' : ℕ} {xs xs' ys ys' chunk : List (List UInt8)}
    (h : Merging size m f1 f2 tp2 (xs ++ xs') (ys ++ ys'))
    (he : Emitted size m tp2 m' tp2' chunk) (hlen : chunk.length = xs.length + ys.length) :
    Merging size m' (f1 + xs.length * size) (f2 + ys.length * size) tp2' xs' ys' := by
  obtain ⟨hl, hr, ho, hla, hra⟩ := h
  have hnext := he.next
  rw [hlen] at hnext
  rw [laid_append] at hl hr
  simp only [List.length_append, Nat.add_mul] at *
  refine ⟨hl.2.congr fun x hx hx' => he.frame x (by omega),
    hr.2.congr fun x hx hx' => he.frame x (by omega), by omega, ?_, ?_⟩
  · rw [Nat.add_mul]
    omega
  · rw [Nat.add_mul]
    omega

/-- What part of the merge loop has put out, and what it leaves to be merged. -/
structure Progress (cmp : List UInt8 → List UInt8 → ℤ) (size : ℕ) (s s' : MergeState)
    (xs ys chunk xs' ys' : List (List UInt8)) : Prop where
  emitted : Emitted size s.mem s.tp2 s'.mem s'.tp2 chunk
  merging : Merging size s'.mem s'.f1 s'.f2 s'.tp2 xs' ys'
  left : s'.f1 + xs'.length * size = s.f1 + xs.length * size
  right : s'.f2 + ys'.length * size = s.f2 + ys.length * size
  suffixes : xs' <:+ xs ∧ ys' <:+ ys
  merge : xs.merge ys (leOf cmp) = chunk ++ xs'.merge ys' (leOf cmp)

theorem Progress.refl {s : MergeState} {xs ys : List (List UInt8)}
    (h : Merging size s.mem s.f1 s.f2 s.tp2 xs ys) : Progress cmp size s s xs ys [] xs ys :=
  ⟨⟨trivial, by simp, fun _ _ => rfl⟩, h, rfl, rfl, ⟨List.suffix_rfl, List.suffix_rfl⟩, rfl⟩

theorem Progress.trans {s s' s'' : MergeState}
    {xs ys chunk xs' ys' chunk' xs'' ys'' : List (List UInt8)}
    (h : Progress cmp size s s' xs ys chunk xs' ys')
    (k : Progress cmp size s' s'' xs' ys' chunk' xs'' ys'') :
    Progress cmp size s s'' xs ys (chunk ++ chunk') xs'' ys'' where
  emitted := h.emitted.trans k.emitted
  merging := k.merging
  left := k.left.trans h.left
  right := k.right.trans h.right
  suffixes := ⟨k.suffixes.1.trans h.suffixes.1, k.suffixes.2.trans h.suffixes.2⟩
  merge := by rw [h.merge, k.merge, List.append_assoc]

theorem progress_of_emitted {s s' : MergeState} {xs xs' ys ys' chunk : List (List UInt8)}
    (h : Merging size s.mem s.f1 s.f2 s.tp2 (xs ++ xs') (ys ++ ys'))
    (he : Emitted size s.mem s.tp2 s'.mem s'.tp2 chunk)
    (hlen : chunk.length = xs.length + ys.length)
    (hl : s'.f1 = s.f1 + xs.length * size) (hr : s'.f2 = s.f2 + ys.length * size)
    (hm : (xs ++ xs').merge (ys ++ ys') (leOf cmp) = chunk ++ xs'.merge ys' (leOf cmp)) :
    Progress cmp size s s' (xs ++ xs') (ys ++ ys') chunk xs' ys' := by
  refine ⟨he, ?_, ?_, ?_, ⟨List.suffix_append _ _, List.suffix_append _ _⟩, hm⟩
  · rw [hl, hr]
    exact h.rest he hlen
  · rw [hl, List.length_append, Nat.add_mul, Nat.add_assoc]
  · rw [hr, List.length_append, Nat.add_mul, Nat.add_assoc]

theorem cut_takeWhile {P : List UInt8 → Bool} {b : ℕ} {zs : List (List UInt8)} (q : ℕ) (sense : ℤ)
    (hz : Laid size m b zs) (hs : Sorted (leOf cmp) zs)
    (hP : ∀ a c, leOf cmp a c = true → P c = true → P a = true)
    (hb : ∀ z, P z = decide (cmp (load m q size) z > sense)) :
    Cut size (fun p => decide (cmpAt cmp size m q p > sense)) b zs.length
      (zs.takeWhile P).length := by
  intro j hj
  rw [← takeWhile_cut hs hP hj, hb, ← hz.get hj]
  rfl

theorem mergeStep_first (hcmp : Comparator cmp) (hw : w ∣ size) (hsize : 0 < size)
    {s : MergeState} {x y : List UInt8} {xs ys : List (List UInt8)}
    (h : Merging size s.mem s.f1 s.f2 s.tp2 (x :: xs) (y :: ys))
    (hx : Sorted (leOf cmp) (x :: xs)) (hxy : leOf cmp x y = true) (l2 : ℕ) :
    ∃ s' chunk xs' ys', mergeStep cmp size w (s.f1 + (x :: xs).length * size) l2 s = some s' ∧
      Progress cmp size s s' (x :: xs) (y :: ys) chunk xs' ys' ∧ 0 < chunk.length := by
  have hfirst : decide (cmpAt cmp size s.mem s.f1 s.f2 ≤ 0) = true := by
    rw [cmpAt, h.left.head, h.right.head]
    exact hxy
  have hcut := cut_takeWhile (P := fun z => leOf cmp z y) s.f2 (-1) h.left hx
    (fun a c hac hc => hcmp.preorder.trans a c y hac hc) fun z => by
      have := hcmp.opposite z y
      simp only [leOf, h.right.head, decide_eq_decide]
      omega
  have hmerge := merge_cons_right (leOf cmp) (x :: xs) ys y
  have hpos : 0 < ((x :: xs).takeWhile fun z => leOf cmp z y).length := by
    simp [hxy]
  have hsplit : (x :: xs).takeWhile (fun z => leOf cmp z y) ++
      (x :: xs).dropWhile (fun z => leOf cmp z y) = x :: xs := List.takeWhile_append_dropWhile
  generalize (x :: xs).takeWhile (fun z => leOf cmp z y) = pre at *
  generalize (x :: xs).dropWhile (fun z => leOf cmp z y) = suf at *
  generalize x :: xs = zs at *
  subst hsplit
  have hla := h.leftApart
  have hra := h.rightApart
  have hord := h.ordered
  simp only [List.length_append, List.length_cons, Nat.add_mul, Nat.one_mul] at hla hra hord
  have hle : pre.length ≤ (pre ++ suf).length := by simp
  obtain ⟨big, hfound⟩ := search_eq hsize hcut hpos hle s.i s.big
  obtain ⟨m₁, m₂, hlist, helt, hemit⟩ := emit_stretch (d := s.tp2) hw hsize
    (laid_append.mp h.left).1 hpos h.right.head (by rw [Nat.add_mul]; omega)
    (by rw [Nat.add_mul]; omega)
  have hq : ¬ s.f2 = s.f1 := by
    have := Nat.mul_pos hpos hsize
    omega
  refine ⟨⟨m₂, s.f1 + pre.length * size, s.f2 + size, s.tp2 + (pre.length + 1) * size, 0, big⟩,
    pre ++ [y], suf, ys, ?_, ?_⟩
  · rw [mergeStep]
    simp only [hfirst, if_true, hfound, Option.bind_some, if_neg hq, hlist, helt, Option.map_some]
  · have hright : s.f2 + size = s.f2 + [y].length * size := by simp
    have hmerge' : (pre ++ suf).merge ([y] ++ ys) (leOf cmp) =
        (pre ++ [y]) ++ suf.merge ys (leOf cmp) := by simpa using hmerge
    exact ⟨progress_of_emitted h hemit List.length_append rfl hright hmerge', by simp⟩

theorem mergeStep_second (hcmp : Comparator cmp) (hw : w ∣ size) (hsize : 0 < size)
    {s : MergeState} {x y : List UInt8} {xs ys : List (List UInt8)}
    (h : Merging size s.mem s.f1 s.f2 s.tp2 (x :: xs) (y :: ys))
    (hy : Sorted (leOf cmp) (y :: ys)) (hxy : ¬ leOf cmp x y = true) (l1 : ℕ) :
    ∃ s' chunk xs' ys', mergeStep cmp size w l1 (s.f2 + (y :: ys).length * size) s = some s' ∧
      Progress cmp size s s' (x :: xs) (y :: ys) chunk xs' ys' ∧ 0 < chunk.length := by
  have hfirst : ¬ decide (cmpAt cmp size s.mem s.f1 s.f2 ≤ 0) = true := by
    rw [cmpAt, h.left.head, h.right.head]
    exact hxy
  have hcut := cut_takeWhile (P := fun z => !leOf cmp x z) s.f1 0 h.right hy
    (fun a c hac hc => by
      simp only [Bool.not_eq_true', Bool.eq_false_iff] at hc ⊢
      exact fun hxa => hc (hcmp.preorder.trans x a c hxa hac)) fun z => by
      simp only [leOf, h.left.head, ← decide_not, decide_eq_decide]
      omega
  have hmerge := merge_cons_left (leOf cmp) xs (y :: ys) x
  have hpos : 0 < ((y :: ys).takeWhile fun z => !leOf cmp x z).length := by
    simp [hxy]
  have hsplit : (y :: ys).takeWhile (fun z => !leOf cmp x z) ++
      (y :: ys).dropWhile (fun z => !leOf cmp x z) = y :: ys := List.takeWhile_append_dropWhile
  generalize (y :: ys).takeWhile (fun z => !leOf cmp x z) = pre at *
  generalize (y :: ys).dropWhile (fun z => !leOf cmp x z) = suf at *
  generalize y :: ys = zs at *
  subst hsplit
  have hla := h.leftApart
  have hra := h.rightApart
  simp only [List.length_append, List.length_cons, Nat.add_mul, Nat.one_mul] at hla hra
  have hle : pre.length ≤ (pre ++ suf).length := by simp
  obtain ⟨big, hfound⟩ := search_eq hsize hcut hpos hle s.i s.big
  obtain ⟨m₁, m₂, hlist, helt, hemit⟩ := emit_stretch (d := s.tp2) hw hsize
    (laid_append.mp h.right).1 hpos h.left.head (by rw [Nat.add_mul]; omega)
    (by rw [Nat.add_mul]; omega)
  refine ⟨⟨m₂, s.f1 + size, s.f2 + pre.length * size, s.tp2 + (pre.length + 1) * size, 0, big⟩,
    pre ++ [x], xs, suf, ?_, ?_⟩
  · rw [mergeStep]
    simp only [if_neg hfirst, hfound, Option.bind_some, if_true, hlist, helt, Option.map_some]
  · have hleft : s.f1 + size = s.f1 + [x].length * size := by simp
    have hlen : (pre ++ [x]).length = [x].length + pre.length := by simp [Nat.add_comm]
    have hmerge' : ([x] ++ xs).merge (pre ++ suf) (leOf cmp) =
        (pre ++ [x]) ++ xs.merge suf (leOf cmp) := by simpa using hmerge
    exact ⟨progress_of_emitted h hemit hlen hleft rfl hmerge', by simp⟩

theorem Progress.fewer {s s' : MergeState} {xs ys chunk xs' ys' : List (List UInt8)}
    (h : Progress cmp size s s' xs ys chunk xs' ys') :
    chunk.length + (xs'.length + ys'.length) = xs.length + ys.length := by
  have := congrArg List.length h.merge
  simp only [List.length_merge, List.length_append] at this
  exact this.symm

theorem mergeLoop_eq (hcmp : Comparator cmp) (hw : w ∣ size) (hsize : 0 < size) {fuel : ℕ}
    {s : MergeState} {xs ys : List (List UInt8)}
    (h : Merging size s.mem s.f1 s.f2 s.tp2 xs ys) (hx : Sorted (leOf cmp) xs)
    (hy : Sorted (leOf cmp) ys) (hfuel : xs.length + ys.length < fuel) :
    ∃ s' chunk xs' ys',
      mergeLoop cmp size w (s.f1 + xs.length * size) (s.f2 + ys.length * size) fuel s = some s' ∧
      Progress cmp size s s' xs ys chunk xs' ys' ∧ (xs' = [] ∨ ys' = []) := by
  induction fuel generalizing s xs ys with
  | zero => omega
  | succ fuel ih =>
    rw [mergeLoop]
    match xs, ys with
    | [], ys =>
      rw [if_neg (by simp)]
      exact ⟨s, [], [], ys, rfl, .refl h, .inl rfl⟩
    | x :: xs, [] =>
      rw [if_neg (by simp)]
      exact ⟨s, [], x :: xs, [], rfl, .refl h, .inr rfl⟩
    | x :: xs, y :: ys =>
      have hmore : s.f1 < s.f1 + (x :: xs).length * size ∧
          s.f2 < s.f2 + (y :: ys).length * size := by
        have : 0 < (x :: xs).length * size := Nat.mul_pos (by simp) hsize
        have : 0 < (y :: ys).length * size := Nat.mul_pos (by simp) hsize
        omega
      have hstep : ∃ s₁ chunk xs₁ ys₁,
          mergeStep cmp size w (s.f1 + (x :: xs).length * size) (s.f2 + (y :: ys).length * size) s =
            some s₁ ∧
          Progress cmp size s s₁ (x :: xs) (y :: ys) chunk xs₁ ys₁ ∧ 0 < chunk.length := by
        by_cases hxy : leOf cmp x y = true
        · exact mergeStep_first hcmp hw hsize h hx hxy _
        · exact mergeStep_second hcmp hw hsize h hy hxy _
      obtain ⟨s₁, chunk, xs₁, ys₁, hrun, hprog, hpos⟩ := hstep
      have hfewer := hprog.fewer
      obtain ⟨s₂, chunk₂, xs₂, ys₂, hrun₂, hprog₂, hend⟩ := ih hprog.merging
        (hx.sublist hprog.suffixes.1.sublist) (hy.sublist hprog.suffixes.2.sublist) (by omega)
      rw [hprog.left, hprog.right] at hrun₂
      refine ⟨s₂, chunk ++ chunk₂, xs₂, ys₂, ?_, hprog.trans hprog₂, hend⟩
      rw [if_pos hmore, hrun, Option.bind_some, hrun₂]

theorem mergeRest_eq (cmp : List UInt8 → List UInt8 → ℤ) (hw : w ∣ size) (hsize : 0 < size)
    {s : MergeState} {xs ys : List (List UInt8)} (h : Merging size s.mem s.f1 s.f2 s.tp2 xs ys)
    (hend : xs = [] ∨ ys = []) :
    ∃ s', mergeRest w (s.f1 + xs.length * size) (s.f2 + ys.length * size) s = some s' ∧
      Emitted size s.mem s.tp2 s'.mem s'.tp2 (xs.merge ys (leOf cmp)) := by
  have hla := h.leftApart
  have hra := h.rightApart
  unfold mergeRest
  match xs, ys with
  | [], [] =>
    rw [if_neg (by simp), if_neg (by simp)]
    exact ⟨s, rfl, by simp [Laid], by simp, fun _ _ => rfl⟩
  | [], y :: ys =>
    have hmore : 0 < (y :: ys).length * size := Nat.mul_pos (by simp) hsize
    simp only [List.length_nil, Nat.zero_add] at hra
    rw [if_pos (by omega), copyList_run hw hsize (by simp) hra]
    refine ⟨_, rfl, ?_⟩
    rw [List.nil_merge]
    exact emitted_move h.right
  | x :: xs, [] =>
    have hmore : 0 < (x :: xs).length * size := Nat.mul_pos (by simp) hsize
    simp only [List.length_nil, Nat.add_zero] at hla
    rw [if_neg (by simp), if_pos (by omega),
      copyList_run hw hsize (by simp) hla]
    refine ⟨_, rfl, ?_⟩
    rw [List.merge_right]
    exact emitted_move h.left
  | x :: xs, y :: ys => simp at hend

/-- Two sorted runs come out as their stable merge, and nothing but the output changes. -/
theorem merge_runs (hcmp : Comparator cmp) (hw : w ∣ size) (hsize : 0 < size)
    {s : MergeState} {xs ys : List (List UInt8)} {l1 l2 fuel : ℕ}
    (h : Merging size s.mem s.f1 s.f2 s.tp2 xs ys) (hx : Sorted (leOf cmp) xs)
    (hy : Sorted (leOf cmp) ys) (h1 : l1 = s.f1 + xs.length * size)
    (h2 : l2 = s.f2 + ys.length * size) (hfuel : xs.length + ys.length < fuel) :
    ∃ r r', mergeLoop cmp size w l1 l2 fuel s = some r ∧ mergeRest w l1 l2 r = some r' ∧
      Emitted size s.mem s.tp2 r'.mem r'.tp2 (xs.merge ys (leOf cmp)) := by
  subst h1 h2
  obtain ⟨r, chunk, xs', ys', hloop, hprog, hend⟩ := mergeLoop_eq hcmp hw hsize h hx hy hfuel
  obtain ⟨r', hrest, hemit⟩ := mergeRest_eq cmp hw hsize hprog.merging hend
  rw [hprog.left, hprog.right] at hrest
  refine ⟨r, r', hloop, hrest, ?_⟩
  rw [hprog.merge]
  exact hprog.emitted.trans hemit

end MergeSort

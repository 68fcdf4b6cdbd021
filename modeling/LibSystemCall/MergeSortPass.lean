import LibSystemCall.MergeSortMerge

/-! # The passes of z_mergesort

A pass merges neighbouring runs of `list1` into `list2`. The ends of the old runs are
stored in `list2`, ahead of the output; the ends of the new ones in `list1`, behind the
elements still to be read. -/
namespace MergeSort

open ByteMemory ElementArray StableMerge StringMemmove StructLayout

variable {cmp : List UInt8 → List UInt8 → ℤ} {size w : ℕ} {m m' : Memory}

theorem le_EVAL (p : ℕ) : p ≤ EVAL p := le_alignUp (by decide) p

theorem EVAL_lt (p : ℕ) : EVAL p < p + 8 := alignUp_lt (by decide) p

theorem loadPtr_storePtr {p v : ℕ} (hv : v < 2 ^ 64) : loadPtr (storePtr m p v) p = v := by
  rw [loadPtr, storePtr, loadWord_storeWord_same _ _ _ rfl, BitVec.toNat_ofNat,
    Nat.mod_eq_of_lt hv]

theorem storePtr_outside {p v x : ℕ} (h : x < p ∨ p + 8 ≤ x) : storePtr m p v x = m x :=
  storeWord_outside h

theorem loadPtr_congr {p : ℕ} (h : ∀ x, p ≤ x → x < p + 8 → m' x = m x) :
    loadPtr m' p = loadPtr m p := by
  rw [loadPtr, loadPtr, loadWord_congr fun i hi => h (p + i) (by omega) (by omega)]

/-! Runs laid out one after the other, with the end of each stored where it starts. -/

abbrev Run := List (List UInt8)

def Chain (size : ℕ) (m : Memory) : ℕ → List Run → Prop
  | _, [] => True
  | p, r :: rs => loadPtr m (EVAL p) = p + r.length * size ∧ Chain size m (p + r.length * size) rs

/-- There is room for a pointer at the start of every run, even unaligned. -/
structure Wide (runs : List Run) : Prop where
  each : ∀ r ∈ runs, 2 ≤ r.length
  last : ∀ r ∈ runs.getLast?, 4 ≤ r.length

theorem Wide.tail {r : Run} {rs : List Run} (h : Wide (r :: rs)) : Wide rs := by
  refine ⟨fun s hs => h.each s (List.mem_cons_of_mem _ hs), fun s hs => ?_⟩
  cases rs with
  | nil => simp at hs
  | cons t ts => exact h.last s (by rwa [List.getLast?_cons_cons])

theorem wide_of_four {runs : List Run} (h : ∀ r ∈ runs, 4 ≤ r.length) : Wide runs :=
  ⟨fun r hr => le_trans (by decide) (h r hr), fun r hr => h r (List.mem_of_getLast? hr)⟩

theorem Wide.four_le {r : Run} {rs : List Run} (h : Wide (r :: rs)) :
    4 ≤ (r :: rs).flatten.length := by
  cases rs with
  | nil => simpa using h.last r (by simp)
  | cons t ts =>
    have hr := h.each r (by simp)
    have ht := h.each t (by simp)
    simp only [List.flatten_cons, List.length_append]
    omega

theorem chain_append {p : ℕ} {rs ss : List Run} :
    Chain size m p (rs ++ ss) ↔
      Chain size m p rs ∧ Chain size m (p + rs.flatten.length * size) ss := by
  induction rs generalizing p with
  | nil => simp [Chain]
  | cons r rs ih =>
    have hstep : p + (r :: rs).flatten.length * size =
        p + r.length * size + rs.flatten.length * size := by
      rw [List.flatten_cons, List.length_append, Nat.add_mul, Nat.add_assoc]
    rw [List.cons_append, Chain, ih, Chain, hstep, and_assoc]

theorem Chain.congr {p : ℕ} {runs : List Run} (h : Chain size m p runs) (hsize : 4 ≤ size)
    (hwide : Wide runs)
    (hm : ∀ x, p ≤ x → x < p + runs.flatten.length * size → m' x = m x) :
    Chain size m' p runs := by
  induction runs generalizing p with
  | nil => trivial
  | cons r rs ih =>
    have hroom : 4 * 4 ≤ (r :: rs).flatten.length * size := Nat.mul_le_mul hwide.four_le hsize
    have hlen : (r :: rs).flatten.length * size = r.length * size + rs.flatten.length * size := by
      rw [List.flatten_cons, List.length_append, Nat.add_mul]
    have hlo := le_EVAL p
    have hhi := EVAL_lt p
    refine ⟨?_, ih h.2 hwide.tail fun x hx hx' => hm x (by omega) (by omega)⟩
    rw [← h.1]
    exact loadPtr_congr fun x hx hx' => hm x (by omega) (by omega)

structure Lists (size n list1 list2 : ℕ) : Prop where
  width : 4 ≤ size
  fits1 : list1 + n * size < 2 ^ 64
  fits2 : list2 + n * size < 2 ^ 64
  apart : list1 + n * size ≤ list2 ∨ list2 + n * size ≤ list1

theorem Lists.swap {n list1 list2 : ℕ} (h : Lists size n list1 list2) :
    Lists size n list2 list1 := ⟨h.width, h.fits2, h.fits1, h.apart.symm⟩

def SameOutside (size n list1 list2 : ℕ) (m m' : Memory) : Prop :=
  ∀ x, (x < list1 ∨ list1 + n * size ≤ x) → (x < list2 ∨ list2 + n * size ≤ x) → m' x = m x

theorem SameOutside.trans {n list1 list2 : ℕ} {m'' : Memory}
    (h : SameOutside size n list1 list2 m m') (k : SameOutside size n list1 list2 m' m'') :
    SameOutside size n list1 list2 m m'' :=
  fun x h1 h2 => (k x h1 h2).trans (h x h1 h2)

theorem SameOutside.swap {n list1 list2 : ℕ} (h : SameOutside size n list1 list2 m m') :
    SameOutside size n list2 list1 m m' := fun x h1 h2 => h x h2 h1

/-- The state of a pass: `out` are the runs put out, `rest` the runs to be read. -/
structure Passing (size n list1 list2 : ℕ) (out rest : List Run) (s : PassState) : Prop where
  outLaid : Laid size s.mem list2 out.flatten
  restLaid : Laid size s.mem (list1 + out.flatten.length * size) rest.flatten
  outChain : Chain size s.mem list1 out
  restChain : Chain size s.mem (list2 + out.flatten.length * size) rest
  l2 : s.l2 = list1 + out.flatten.length * size
  p1 : s.p1 = EVAL s.l2
  p2 : s.p2 = list2 + out.flatten.length * size
  tp2 : s.tp2 = list2 + out.flatten.length * size
  total : out.flatten.length + rest.flatten.length = n
  outWide : ∀ r ∈ out, 4 ≤ r.length
  restWide : Wide rest

theorem Passing.next {n list1 list2 : ℕ} {out used rest : List Run} {s : PassState} {r : Run}
    {l2 p2 tp2 i : ℕ} {big : Bool} (hl : Lists size n list1 list2)
    (h : Passing size n list1 list2 out (used ++ rest) s)
    (hlen : r.length = used.flatten.length) (hroom : 4 ≤ r.length) (hwide : Wide rest)
    (he : Emitted size s.mem s.tp2 m' tp2 r)
    (h2 : l2 = list1 + (out.flatten.length + r.length) * size)
    (hp2 : p2 = list2 + (out.flatten.length + r.length) * size) :
    Passing size n list1 list2 (out ++ [r]) rest
      ⟨storePtr m' s.p1 l2, l2, EVAL l2, p2, tp2, i, big⟩ := by
  have hbytes : 4 * 4 ≤ r.length * size := Nat.mul_le_mul hroom hl.width
  have htotal := congrArg (· * size) h.total
  have hlo := le_EVAL (list1 + out.flatten.length * size)
  have hhi := EVAL_lt (list1 + out.flatten.length * size)
  have htp2 := he.next
  have hp1 := h.p1
  have hfits := hl.fits1
  have hapart := hl.apart
  have hflat : (out ++ [r]).flatten.length = out.flatten.length + r.length := by simp
  rw [h.tp2] at htp2
  rw [h.l2] at hp1
  simp only [List.flatten_append, List.length_append, Nat.add_mul, ← hlen] at htotal
  rw [Nat.add_mul] at h2 hp2
  -- one block is written in each list
  have hsame : ∀ x, (x < list2 + out.flatten.length * size ∨ tp2 ≤ x) →
      (x < list1 + out.flatten.length * size ∨ l2 ≤ x) →
      storePtr m' s.p1 l2 x = s.mem x := by
    intro x hx hx'
    rw [storePtr_outside (by omega), he.frame x (by rw [h.tp2]; omega)]
  refine ⟨?_, ?_, ?_, ?_, ?_, rfl, ?_, ?_, ?_, ?_, hwide⟩
  · rw [List.flatten_append, List.flatten_singleton, laid_append]
    refine ⟨h.outLaid.congr fun x hx hx' => hsame x (by omega) (by omega), ?_⟩
    have hr := he.laid
    rw [h.tp2] at hr
    exact hr.congr fun x hx hx' => storePtr_outside (by omega)
  · have hrest := h.restLaid
    rw [List.flatten_append, laid_append, ← hlen] at hrest
    rw [hflat, Nat.add_mul, ← Nat.add_assoc]
    exact hrest.2.congr fun x hx hx' => hsame x (by omega) (by omega)
  · refine chain_append.mpr ⟨?_, ?_, trivial⟩
    · exact h.outChain.congr hl.width (wide_of_four h.outWide) fun x hx hx' =>
        hsame x (by omega) (by omega)
    · show loadPtr (storePtr m' s.p1 l2) _ = _
      rw [hp1, loadPtr_storePtr (by omega)]
      omega
  · have hrest := (chain_append.mp h.restChain).2
    rw [← hlen] at hrest
    rw [hflat, Nat.add_mul, ← Nat.add_assoc]
    exact hrest.congr hl.width hwide fun x hx hx' => hsame x (by omega) (by omega)
  · rw [hflat, Nat.add_mul]
    exact h2
  · rw [hflat, Nat.add_mul]
    exact hp2
  · rw [hflat, Nat.add_mul]
    show tp2 = _
    omega
  · have := h.total
    rw [hflat]
    simp only [List.flatten_append, List.length_append] at this
    omega
  · intro t ht
    rcases List.mem_append.mp ht with ht | ht
    · exact h.outWide t ht
    · rwa [List.mem_singleton.mp ht]

/-- One round of a pass: the runs `x` and `y`, where `y` is empty if `x` is the last one. -/
theorem passStep_merges (hcmp : Comparator cmp) (hw : w ∣ size) {n list1 list2 : ℕ}
    {out : List Run} {s : PassState} (used rest : List Run) (x y : Run)
    (hl : Lists size n list1 list2) (h : Passing size n list1 list2 out (used ++ rest) s)
    (hused : used.flatten = x ++ y)
    (hx : Sorted (leOf cmp) x) (hy : Sorted (leOf cmp) y) (hroom : 4 ≤ x.length + y.length)
    (hwide : Wide rest) (hfirst : loadPtr s.mem (EVAL s.p2) = s.p2 + x.length * size)
    (hsecond :
      (if s.p2 + x.length * size ≠ list2 + n * size then
        loadPtr s.mem (EVAL (s.p2 + x.length * size)) else s.p2 + x.length * size) =
      s.p2 + x.length * size + y.length * size) :
    ∃ s', passStep cmp size w list1 list2 (list2 + n * size) s = some s' ∧
      Passing size n list1 list2 (out ++ [x.merge y (leOf cmp)]) rest s' ∧
      SameOutside size n list1 list2 s.mem s'.mem := by
  have hsize : 0 < size := lt_of_lt_of_le (by decide) hl.width
  have hp2 := h.p2
  have hl2 := h.l2
  have htp2 := h.tp2
  have hapart := hl.apart
  have htotal := congrArg (· * size) h.total
  have hmlen : (x.merge y (leOf cmp)).length = used.flatten.length := by
    rw [List.length_merge, hused, List.length_append]
  have hrest := h.restLaid
  rw [List.flatten_append, hused, laid_append, laid_append] at hrest
  simp only [List.flatten_append, hused, List.length_append, Nat.add_mul] at htotal
  have hl1 : list1 + (s.p2 + x.length * size - list2) = s.l2 + x.length * size := by omega
  have hend : list1 + (s.p2 + x.length * size + y.length * size - list2) =
      s.l2 + x.length * size + y.length * size := by omega
  have hmerging : Merging size s.mem s.l2 (s.l2 + x.length * size) s.tp2 x y := by
    rw [← hl2] at hrest
    refine ⟨hrest.1.1, hrest.1.2, le_rfl, ?_, ?_⟩
    · rw [Nat.add_mul]
      omega
    · rw [Nat.add_mul]
      omega
  have hrounds : x.length + y.length <
      s.l2 + x.length * size - s.l2 +
        (s.l2 + x.length * size + y.length * size - (s.l2 + x.length * size)) + 1 := by
    have := Nat.le_mul_of_pos_right x.length hsize
    have := Nat.le_mul_of_pos_right y.length hsize
    omega
  obtain ⟨r, r', hloop, hcopy, hemit⟩ := merge_runs
    (s := ⟨s.mem, s.l2, s.l2 + x.length * size, s.tp2, s.i, s.big⟩)
    hcmp hw hsize hmerging hx hy rfl rfl hrounds
  simp only at hloop hcopy hemit
  refine ⟨⟨storePtr r'.mem s.p1 (s.l2 + x.length * size + y.length * size),
    s.l2 + x.length * size + y.length * size, EVAL (s.l2 + x.length * size + y.length * size),
    s.p2 + x.length * size + y.length * size, r'.tp2, r'.i, r'.big⟩, ?_,
    h.next hl hmlen (by rwa [List.length_merge]) hwide hemit ?_ ?_, fun a h1 h2 => ?_⟩
  · rw [passStep]
    simp only [hfirst, hsecond, hl1, hend, hloop, Option.bind_some, hcopy, Option.map_some]
  · rw [List.length_merge, Nat.add_mul, Nat.add_mul]
    omega
  · rw [List.length_merge, Nat.add_mul, Nat.add_mul]
    omega
  · have hnext := hemit.next
    have hp1 := h.p1
    have hslot := EVAL_lt s.l2
    have hslot' := le_EVAL s.l2
    have hbytes : 4 * 4 ≤ (x.length + y.length) * size := Nat.mul_le_mul hroom hl.width
    rw [Nat.add_mul] at hbytes
    rw [List.length_merge, Nat.add_mul] at hnext
    simp only
    rw [storePtr_outside (by omega), hemit.frame a (by omega)]

theorem passLoop_done {n list1 list2 fuel : ℕ} {out : List Run} {s : PassState}
    (h : Passing size n list1 list2 out [] s) :
    passLoop cmp size w list1 list2 (list2 + n * size) (fuel + 1) s = some s := by
  have htotal : out.flatten.length = n := h.total
  have hlast : s.p2 = list2 + n * size := by rw [h.p2, htotal]
  rw [passLoop, if_neg (by simp [hlast])]

theorem Passing.more {n list1 list2 : ℕ} {out rest : List Run} {r : Run} {s : PassState}
    (hl : Lists size n list1 list2) (h : Passing size n list1 list2 out (r :: rest) s) :
    s.p2 ≠ list2 + n * size := by
  have hsize : 0 < size := lt_of_lt_of_le (by decide) hl.width
  have hfour := h.restWide.four_le
  have htotal := h.total
  have hlt : out.flatten.length * size < n * size :=
    Nat.mul_lt_mul_of_pos_right (by omega) hsize
  rw [h.p2]
  omega

theorem passLoop_eq (hcmp : Comparator cmp) (hw : w ∣ size) {n list1 list2 fuel : ℕ}
    {out rest : List Run} {s : PassState} (hl : Lists size n list1 list2)
    (h : Passing size n list1 list2 out rest s) (hs : ∀ r ∈ rest, Sorted (leOf cmp) r)
    (hfuel : rest.length < fuel) :
    ∃ s', passLoop cmp size w list1 list2 (list2 + n * size) fuel s = some s' ∧
      Passing size n list1 list2 (out ++ mergePairs (leOf cmp) rest) [] s' ∧
      SameOutside size n list1 list2 s.mem s'.mem := by
  obtain ⟨fuel, rfl⟩ := Nat.exists_eq_add_of_le' (show 1 ≤ fuel by omega)
  induction rest using mergePairs.induct generalizing out s fuel with
  | case1 =>
    refine ⟨s, passLoop_done h, ?_, fun _ _ _ => rfl⟩
    rwa [mergePairs, List.append_nil]
  | case2 x =>
    obtain ⟨fuel, rfl⟩ := Nat.exists_eq_add_of_le' (show 1 ≤ fuel by simp at hfuel; omega)
    have hchain := h.restChain
    rw [← h.p2] at hchain
    have hlast : s.p2 + x.length * size = list2 + n * size := by
      have htotal := h.total
      simp only [List.flatten_cons, List.flatten_nil, List.append_nil] at htotal
      rw [h.p2, ← htotal, Nat.add_mul, Nat.add_assoc]
    have hroom : 4 ≤ x.length + ([] : Run).length := by
      simpa using h.restWide.four_le
    obtain ⟨s₁, hstep, h₁, hsame⟩ := passStep_merges hcmp hw [x] [] x [] hl h
      (by simp) (hs x (by simp)) List.Pairwise.nil hroom ⟨by simp, by simp⟩ hchain.1
      (by rw [if_neg (by simp [hlast])]; simp)
    refine ⟨s₁, ?_, by simpa [mergePairs] using h₁, hsame⟩
    rw [passLoop, if_pos (h.more hl), hstep, Option.bind_some, passLoop_done h₁]
  | case3 x y rest ih =>
    have hchain := h.restChain
    rw [← h.p2] at hchain
    have hsize : 0 < size := lt_of_lt_of_le (by decide) hl.width
    have hx := h.restWide.each x (by simp)
    have hy := h.restWide.each y (by simp)
    have hnot : s.p2 + x.length * size ≠ list2 + n * size := by
      have htotal := congrArg (· * size) h.total
      have hpos : 0 < y.length * size := Nat.mul_pos (by omega) hsize
      simp only [List.flatten_cons, List.length_append, Nat.add_mul] at htotal
      rw [h.p2]
      omega
    obtain ⟨s₁, hstep, h₁, hsame⟩ := passStep_merges hcmp hw [x, y] rest x y hl h
      (by simp) (hs x (by simp)) (hs y (by simp)) (by omega) h.restWide.tail.tail hchain.1
      (by rw [if_pos hnot]; exact hchain.2.1)
    obtain ⟨fuel, rfl⟩ := Nat.exists_eq_add_of_le' (show 1 ≤ fuel by simp at hfuel; omega)
    obtain ⟨s₂, hloop, h₂, hsame₂⟩ := ih h₁ (fun r hr => hs r (by simp [hr])) fuel
      (by simp only [List.length_cons] at hfuel; omega)
    refine ⟨s₂, ?_, by simpa [mergePairs] using h₂, hsame.trans hsame₂⟩
    rw [passLoop, if_pos (h.more hl), hstep, Option.bind_some, hloop]

structure Sorting (cmp : List UInt8 → List UInt8 → ℤ) (size n : ℕ) (es : List (List UInt8))
    (runs : List Run) (s : SortState) : Prop where
  lists : Lists size n s.list1 s.list2
  laid : Laid size s.mem s.list1 runs.flatten
  chain : Chain size s.mem s.list2 runs
  sorted : ∀ r ∈ runs, Sorted (leOf cmp) r
  stable : Stable (leOf cmp) es runs.flatten
  total : runs.flatten.length = n
  wide : runs.length = 1 ∨ Wide runs

theorem Wide.length_le {runs : List Run} (h : Wide runs) : runs.length ≤ runs.flatten.length := by
  induction runs with
  | nil => exact Nat.zero_le _
  | cons r rs ih =>
    have hr := h.each r (by simp)
    have hrs := ih h.tail
    simp only [List.length_cons, List.flatten_cons, List.length_append]
    omega

theorem Sorting.rounds {n : ℕ} {es : List (List UInt8)} {runs : List Run} {s : SortState}
    (h : Sorting cmp size n es runs s) (hn : 0 < n) : runs.length ≤ n * size := by
  have hsize : 0 < size := lt_of_lt_of_le (by decide) h.lists.width
  have hbytes := Nat.le_mul_of_pos_right n hsize
  rcases h.wide with hone | hwide
  · omega
  · have hle := hwide.length_le
    have htotal := h.total
    omega

theorem Sorting.pass (hcmp : Comparator cmp) (hw : w ∣ size) {n : ℕ} {es : List (List UInt8)}
    {x y : Run} {rest : List Run} {s : SortState} (hn : 0 < n)
    (h : Sorting cmp size n es (x :: y :: rest) s) :
    ∃ r, passLoop cmp size w s.list1 s.list2 (s.list2 + n * size) (n * size + 1)
        ⟨s.mem, s.list1, EVAL s.list1, s.list2, s.list2, s.i, s.big⟩ = some r ∧
      Sorting cmp size n es (mergePairs (leOf cmp) (x :: y :: rest))
        ⟨r.mem, s.list2, s.list1, r.i, r.big⟩ ∧
      SameOutside size n s.list1 s.list2 s.mem r.mem := by
  have hwide : Wide (x :: y :: rest) := h.wide.resolve_left (by simp)
  have hstart : Passing size n s.list1 s.list2 [] (x :: y :: rest)
      ⟨s.mem, s.list1, EVAL s.list1, s.list2, s.list2, s.i, s.big⟩ :=
    ⟨trivial, by simpa using h.laid, trivial, by simpa using h.chain, by simp, rfl, by simp,
      by simp, by simpa using h.total, by simp, hwide⟩
  obtain ⟨r, hrun, hpass, hsame⟩ := passLoop_eq hcmp hw h.lists hstart h.sorted
    (Nat.lt_succ_of_le (h.rounds hn))
  rw [List.nil_append] at hpass
  have hstable := stable_mergePairs hcmp.preorder (x :: y :: rest) h.sorted
  refine ⟨r, hrun, ⟨h.lists.swap, hpass.outLaid, hpass.outChain, ?_, h.stable.trans hstable, ?_,
    .inr (wide_of_four hpass.outWide)⟩, hsame⟩
  · exact sorted_mergePairs hcmp.preorder _ h.sorted
  · rw [hstable.length_eq, h.total]

/-- The passes end with one run, which is the stable sorted rearrangement. -/
theorem sortLoop_sorts (hcmp : Comparator cmp) (hw : w ∣ size) {n fuel : ℕ}
    {es : List (List UInt8)} {runs : List Run} {s : SortState} (hn : 0 < n)
    (h : Sorting cmp size n es runs s) (hfuel : runs.length ≤ fuel) :
    ∃ s' r, sortLoop cmp size w n fuel s = some s' ∧ Laid size s'.mem s'.list1 r ∧
      Sorted (leOf cmp) r ∧ Stable (leOf cmp) es r ∧
      (s'.list1 = s.list1 ∧ s'.list2 = s.list2 ∨ s'.list1 = s.list2 ∧ s'.list2 = s.list1) ∧
      SameOutside size n s.list1 s.list2 s.mem s'.mem := by
  have hsize : 0 < size := lt_of_lt_of_le (by decide) h.lists.width
  induction fuel generalizing runs s with
  | zero =>
    have hnil := List.length_eq_zero_iff.mp (Nat.le_zero.mp hfuel)
    have htotal := h.total
    rw [hnil] at htotal
    simp only [List.flatten_nil, List.length_nil] at htotal
    omega
  | succ fuel ih =>
    have htotal := h.total
    rw [sortLoop]
    match runs with
    | [] =>
      simp only [List.flatten_nil, List.length_nil] at htotal
      omega
    | [r] =>
      simp only [List.flatten_cons, List.flatten_nil, List.append_nil] at htotal
      have hlast : loadPtr s.mem (EVAL s.list2) = s.list2 + n * size := by
        rw [h.chain.1, htotal]
      refine ⟨s, r, ?_, by simpa using h.laid, h.sorted r (by simp), by simpa using h.stable,
        .inl ⟨rfl, rfl⟩, fun _ _ _ => rfl⟩
      simp only [hlast, ne_eq, not_true, if_false]
    | x :: y :: rest =>
      have hwide : Wide (x :: y :: rest) := h.wide.resolve_left (by simp)
      have hnot : loadPtr s.mem (EVAL s.list2) ≠ s.list2 + n * size := by
        have hy := hwide.each y (by simp)
        have hpos : 0 < y.length * size := Nat.mul_pos (by omega) hsize
        rw [h.chain.1, ← htotal]
        simp only [List.flatten_cons, List.length_append, Nat.add_mul]
        omega
      obtain ⟨r, hrun, hpass, hsame⟩ := h.pass hcmp hw hn
      have hfewer := length_mergePairs (leOf cmp) (x :: y :: rest)
      obtain ⟨s', es', hloop, hlaid, hsorted, hstable, hlists, hsame'⟩ := ih hpass
        (by simp only [List.length_cons] at hfewer hfuel; omega)
      refine ⟨s', es', ?_, hlaid, hsorted, hstable, hlists.symm, hsame.trans hsame'.swap⟩
      simp only [if_pos hnot, hrun, Option.bind_some, hloop]

end MergeSort

import LibSystemCall.ByteMemory
import Mathlib.Data.Nat.Bitwise
import Mathlib.Logic.Function.Iterate

/-! # z_memmove

The cursor holds the two moving pointers of `z_memmove` and the memory it writes.
The word phase steps by `wsize` and transfers a `z_int64`. -/
namespace StringMemmove

open ByteMemory

def wsize : ℕ := 4
def wmask : ℕ := wsize - 1

structure Cursor where
  mem : Memory
  dst : ℕ
  src : ℕ

/-- `do { s; } while (--t)` on an unsigned long: a zero count wraps around. -/
def tloop1 (s : Cursor → Cursor) (t : ℕ) : Cursor → Cursor := s^[if t = 0 then 2 ^ 64 else t]

def tloop (s : Cursor → Cursor) (t : ℕ) (c : Cursor) : Cursor :=
  if t ≠ 0 then tloop1 s t c else c

theorem tloop1_eq (s : Cursor → Cursor) {t : ℕ} (ht : t ≠ 0) : tloop1 s t = s^[t] := by
  rw [tloop1, if_neg ht]

theorem tloop_eq (s : Cursor → Cursor) (t : ℕ) : tloop s t = s^[t] := by
  funext c
  by_cases ht : t = 0
  · simp [tloop, ht]
  · rw [tloop, if_pos ht, tloop1_eq s ht]

/-- `*dst++ = *src++` -/
def byteUp (c : Cursor) : Cursor :=
  ⟨storeWord c.mem c.dst (loadWord 8 c.mem c.src), c.dst + 1, c.src + 1⟩

/-- `*(z_int64 *)dst = *(z_int64 *)src; src += wsize; dst += wsize` -/
def wordUp (c : Cursor) : Cursor :=
  ⟨storeWord c.mem c.dst (loadWord 64 c.mem c.src), c.dst + wsize, c.src + wsize⟩

/-- `*--dst = *--src` -/
def byteDown (c : Cursor) : Cursor :=
  ⟨storeWord c.mem (c.dst - 1) (loadWord 8 c.mem (c.src - 1)), c.dst - 1, c.src - 1⟩

/-- `src -= wsize; dst -= wsize; *(z_int64 *)dst = *(z_int64 *)src` -/
def wordDown (c : Cursor) : Cursor :=
  ⟨storeWord c.mem (c.dst - wsize) (loadWord 64 c.mem (c.src - wsize)),
    c.dst - wsize, c.src - wsize⟩

def copyForward (m : Memory) (dst src length : ℕ) : Memory :=
  let c : Cursor := ⟨m, dst, src⟩
  let t :=
    if (src ^^^ dst) &&& wmask ≠ 0 ∨ length < wsize then length else wsize - (src &&& wmask)
  let aligned : Cursor × ℕ :=
    if (src ||| dst) &&& wmask ≠ 0 then (tloop1 byteUp t c, length - t) else (c, length)
  let c := tloop wordUp (aligned.2 / wsize) aligned.1
  (tloop byteUp (aligned.2 &&& wmask) c).mem

def copyBackward (m : Memory) (dst src length : ℕ) : Memory :=
  let src := src + length
  let dst := dst + length
  let c : Cursor := ⟨m, dst, src⟩
  let t := if (src ^^^ dst) &&& wmask ≠ 0 ∨ length ≤ wsize then length else src &&& wmask
  let aligned : Cursor × ℕ :=
    if (src ||| dst) &&& wmask ≠ 0 then (tloop1 byteDown t c, length - t) else (c, length)
  let c := tloop wordDown (aligned.2 / wsize) aligned.1
  (tloop byteDown (aligned.2 &&& wmask) c).mem

def zMemmove (m : Memory) (dst0 src0 length : ℕ) : Memory × ℕ :=
  if length = 0 ∨ dst0 = src0 then (m, dst0)
  else if dst0 < src0 then (copyForward m dst0 src0 length, dst0)
  else (copyBackward m dst0 src0 length, dst0)

/-! The memory while a copy runs: the bytes at offsets `lo` to `hi` have been moved. -/

def moved (m : Memory) (dst src lo hi : ℕ) : Memory := moveBytes m (dst + lo) (src + lo) (hi - lo)

theorem moved_apply (m : Memory) (dst src lo hi x : ℕ) :
    moved m dst src lo hi x =
      if dst + lo ≤ x ∧ x < dst + hi then m (src + (x - dst)) else m x := by
  unfold moved
  rw [moveBytes_apply]
  by_cases h : dst + lo ≤ x ∧ x < dst + hi
  · rw [if_pos h, if_pos (by omega)]
    congr 1
    omega
  · rw [if_neg h, if_neg (by omega)]

theorem moved_extend {m : Memory} {dst src lo hi k w : ℕ}
    (hsrc : src + k + w ≤ dst + lo ∨ dst + hi ≤ src + k)
    (hlo : k ≤ hi) (hhi : lo ≤ k + w) :
    moveBytes (moved m dst src lo hi) (dst + k) (src + k) w =
      moved m dst src (min lo k) (max hi (k + w)) := by
  funext x
  rw [moveBytes_apply, moved_apply m dst src (min lo k)]
  by_cases hx : dst + k ≤ x ∧ x < dst + k + w
  · rw [if_pos hx, if_pos (by omega), moved_apply, if_neg (by omega)]
    congr 1
    omega
  · rw [if_neg hx, moved_apply]
    by_cases hin : dst + lo ≤ x ∧ x < dst + hi
    · rw [if_pos hin, if_pos (by omega)]
    · rw [if_neg hin, if_neg (by omega)]

theorem moved_empty (m : Memory) (dst src k : ℕ) : moved m dst src k k = m := by
  funext x
  rw [moved_apply, if_neg (by omega)]

theorem byte_transfer (m : Memory) (a b : ℕ) :
    storeWord m a (loadWord 8 m b) = moveBytes m a b 1 := storeWord_loadWord m m a b 8 rfl

theorem word_transfer (m : Memory) (a b : ℕ) :
    storeWord m a (loadWord 64 m b) = moveBytes m a b 8 := storeWord_loadWord m m a b 64 rfl

/-! Forward: `k` bytes are behind the cursor and the moved range ends at offset `n`,
which runs ahead of `k` by the upper half of the last word. -/

section Forward

variable {m : Memory} {dst src : ℕ}

def upTo (m : Memory) (dst src k n : ℕ) : Cursor := ⟨moved m dst src 0 n, dst + k, src + k⟩

theorem byteUp_upTo {k n : ℕ} (hk : k ≤ n) (hn : dst + n ≤ src + k) :
    byteUp (upTo m dst src k n) = upTo m dst src (k + 1) (max n (k + 1)) := by
  simp only [byteUp, upTo, byte_transfer]
  rw [moved_extend (Or.inr hn) hk (by omega), Nat.zero_min]
  simp [Nat.add_assoc]

theorem byteUp_iterate {k n : ℕ} (t : ℕ) (hk : k ≤ n) (hn : dst + n ≤ src + k) :
    byteUp^[t] (upTo m dst src k n) = upTo m dst src (k + t) (max n (k + t)) := by
  induction t with
  | zero => simp [Nat.max_eq_left hk]
  | succ t ih =>
    rw [Function.iterate_succ_apply', ih, byteUp_upTo (by omega) (by omega)]
    congr 1
    omega

theorem wordUp_upTo {k n : ℕ} (hk : k ≤ n) (hn : dst + n ≤ src + k) (hw : n ≤ k + 4) :
    wordUp (upTo m dst src k n) = upTo m dst src (k + 4) (k + 8) := by
  simp only [wordUp, upTo, word_transfer, wsize]
  rw [moved_extend (Or.inr hn) hk (by omega), Nat.zero_min, Nat.max_eq_right (by omega)]
  simp [Nat.add_assoc]

theorem wordUp_iterate {k : ℕ} (t : ℕ) (hgap : dst + 4 ≤ src) (ht : t ≠ 0) :
    wordUp^[t] (upTo m dst src k k) = upTo m dst src (k + 4 * t) (k + 4 * t + 4) := by
  induction t with
  | zero => exact absurd rfl ht
  | succ t ih =>
    rw [Function.iterate_succ_apply']
    by_cases h0 : t = 0
    · subst t
      exact wordUp_upTo le_rfl (by omega) (by omega)
    · rw [ih h0, wordUp_upTo (by omega) (by omega) (by omega)]
      congr 1

theorem forward_words (a length : ℕ) (hlt : dst < src) (ha : a ≤ length)
    (hgap : a + 4 ≤ length → dst + 4 ≤ src) :
    (byteUp^[(length - a) % 4] (wordUp^[(length - a) / 4] (upTo m dst src a a))).mem =
      moved m dst src 0 (length + if a + 4 ≤ length then 4 - (length - a) % 4 else 0) := by
  by_cases hw : a + 4 ≤ length
  · rw [wordUp_iterate _ (hgap hw) (by omega), byteUp_iterate _ (by omega) (by
      have := hgap hw; omega), if_pos hw]
    simp only [upTo]
    congr 1
    omega
  · have h0 : (length - a) / 4 = 0 := by omega
    rw [h0, Function.iterate_zero_apply, byteUp_iterate _ le_rfl (by omega), if_neg hw]
    simp only [upTo]
    congr 1
    omega

end Forward

/-! Backward: the moved range starts at the cursor and ends at offset `hi`, which the
first word pushes above the end of the block. -/

section Backward

variable {m : Memory} {dst src : ℕ}

def downTo (m : Memory) (dst src lo hi : ℕ) : Cursor :=
  ⟨moved m dst src lo hi, dst + lo, src + lo⟩

theorem byteDown_iterate (lo hi t : ℕ) (hlo : lo + t ≤ hi) (hlt : src ≤ dst) :
    byteDown^[t] (downTo m dst src (lo + t) hi) = downTo m dst src lo hi := by
  induction t with
  | zero => rfl
  | succ t ih =>
    have step : byteDown (downTo m dst src (lo + (t + 1)) hi) = downTo m dst src (lo + t) hi := by
      simp only [byteDown, downTo, byte_transfer, ← Nat.add_assoc, Nat.add_sub_cancel]
      rw [Nat.add_assoc dst, Nat.add_assoc src, moved_extend (by omega) (by omega) (by omega)]
      congr 2 <;> omega
    rw [Function.iterate_succ_apply, step]
    exact ih (by omega)

theorem wordDown_downTo (lo : ℕ) {hi : ℕ} (hlo : lo + 4 ≤ hi) (hgap : src + 4 ≤ dst) :
    wordDown (downTo m dst src (lo + 4) hi) = downTo m dst src lo (max hi (lo + 8)) := by
  simp only [wordDown, downTo, word_transfer, wsize, ← Nat.add_assoc, Nat.add_sub_cancel]
  rw [moved_extend (by omega) (by omega) (by omega)]
  congr 2
  omega

theorem wordDown_iterate (lo hi t : ℕ) (hlo : lo + 4 * t ≤ hi) (hgap : src + 4 ≤ dst)
    (ht : t ≠ 0) :
    wordDown^[t] (downTo m dst src (lo + 4 * t) hi) =
      downTo m dst src lo (max hi (lo + 4 * t + 4)) := by
  induction t generalizing hi with
  | zero => exact absurd rfl ht
  | succ t ih =>
    have step : wordDown (downTo m dst src (lo + 4 * (t + 1)) hi) =
        downTo m dst src (lo + 4 * t) (max hi (lo + 4 * t + 8)) :=
      wordDown_downTo (lo + 4 * t) (by omega) hgap
    rw [Function.iterate_succ_apply, step]
    by_cases h0 : t = 0
    · subst t
      rfl
    · rw [ih _ (by omega) h0]
      congr 1
      omega

theorem backward_words {n length : ℕ} (hlt : src < dst) (hn : n ≤ length)
    (hgap : 4 ≤ n → src + 4 ≤ dst) :
    (byteDown^[n % 4] (wordDown^[n / 4] (downTo m dst src n length))).mem =
      moved m dst src 0 (if 4 ≤ n then max length (n + 4) else length) := by
  have mopUp : ∀ hi, n ≤ hi →
      byteDown^[n % 4] (downTo m dst src (n % 4) hi) = downTo m dst src 0 hi := by
    intro hi hle
    have := byteDown_iterate (m := m) 0 hi (n % 4) (by omega) hlt.le
    rwa [Nat.zero_add] at this
  by_cases hw : 4 ≤ n
  · have words := wordDown_iterate (m := m) (n % 4) length (n / 4) (by omega)
      (hgap hw) (by omega)
    rw [Nat.mod_add_div] at words
    rw [words, mopUp _ (by omega), if_pos hw]
    rfl
  · have h0 : n / 4 = 0 := by omega
    have hn4 : n % 4 = n := Nat.mod_eq_of_lt (by omega)
    have bytes := mopUp length hn
    rw [hn4] at bytes
    rw [h0, Function.iterate_zero_apply, hn4, bytes, if_neg hw]
    rfl

end Backward

/-- Bytes moved singly before the word phase, when both pointers share their low bits. -/
def alignment (dst src length : ℕ) : ℕ :=
  if dst < src then (wsize - src % wsize) % wsize else (src + length) % wsize

def ReachesWordLoop (dst src length : ℕ) : Prop :=
  dst ≠ src ∧ dst % wsize = src % wsize ∧ alignment dst src length + wsize ≤ length

instance (dst src length : ℕ) : Decidable (ReachesWordLoop dst src length) :=
  inferInstanceAs (Decidable (_ ∧ _ ∧ _))

/-- How far the last `z_int64` store of the word phase runs past the block. -/
def overrun (dst src length : ℕ) : ℕ :=
  if ReachesWordLoop dst src length then wsize - (src + length) % wsize else 0

theorem and_wmask (a : ℕ) : a &&& wmask = a % 4 := Nat.and_two_pow_sub_one_eq_mod a 2

theorem misaligned_iff (a b : ℕ) : (a ||| b) &&& wmask ≠ 0 ↔ a % 4 ≠ 0 ∨ b % 4 ≠ 0 := by
  rw [Nat.and_or_distrib_right, and_wmask, and_wmask, ne_eq, Nat.or_eq_zero_iff]
  omega

theorem low_bits_differ_iff (a b : ℕ) : (a ^^^ b) &&& wmask ≠ 0 ↔ a % 4 ≠ b % 4 := by
  rw [Nat.and_xor_distrib_right, and_wmask, and_wmask, ne_eq, Nat.xor_eq_zero_iff]

theorem copyForward_eq (m : Memory) {dst src length : ℕ} (hlt : dst < src) (hl : 0 < length) :
    copyForward m dst src length = moved m dst src 0 (length + overrun dst src length) := by
  have start : (⟨m, dst, src⟩ : Cursor) = upTo m dst src 0 0 := by
    simp [upTo, moved_empty]
  have lead : ∀ t, t ≠ 0 → tloop1 byteUp t (upTo m dst src 0 0) = upTo m dst src t t := by
    intro t ht
    rw [tloop1_eq _ ht, byteUp_iterate t le_rfl (by omega)]
    simp
  simp only [copyForward, misaligned_iff, low_bits_differ_iff, start, tloop_eq]
  simp only [and_wmask, wsize, overrun, ReachesWordLoop, alignment, if_pos hlt]
  by_cases hmis : src % 4 ≠ 0 ∨ dst % 4 ≠ 0
  · rw [if_pos hmis]
    by_cases hwhole : src % 4 ≠ dst % 4 ∨ length < 4
    · rw [if_pos hwhole, lead length (by omega), forward_words _ _ hlt le_rfl (by omega),
        if_neg (by omega), if_neg (by omega)]
    · rw [if_neg hwhole, lead _ (by omega), forward_words _ _ hlt (by omega) (by omega)]
      congr 2
      split_ifs <;> omega
  · rw [if_neg hmis]
    have words := forward_words (m := m) 0 length hlt (by omega) (by omega)
    simp only [Nat.sub_zero, Nat.zero_add] at words
    rw [words]
    congr 2
    split_ifs <;> omega

theorem copyBackward_eq (m : Memory) {dst src length : ℕ} (hlt : src < dst) (hl : 0 < length) :
    copyBackward m dst src length = moved m dst src 0 (length + overrun dst src length) := by
  have start : (⟨m, dst + length, src + length⟩ : Cursor) = downTo m dst src length length := by
    simp [downTo, moved_empty]
  have lead : ∀ t, t ≠ 0 → t ≤ length →
      tloop1 byteDown t (downTo m dst src length length) =
        downTo m dst src (length - t) length := by
    intro t ht htl
    have bytes := byteDown_iterate (m := m) (length - t) length t (by omega) hlt.le
    rw [Nat.sub_add_cancel htl] at bytes
    rw [tloop1_eq _ ht, bytes]
  simp only [copyBackward, misaligned_iff, low_bits_differ_iff, start, tloop_eq]
  simp only [and_wmask, wsize, overrun, ReachesWordLoop, alignment, if_neg hlt.not_gt]
  by_cases hmis : (src + length) % 4 ≠ 0 ∨ (dst + length) % 4 ≠ 0
  · rw [if_pos hmis]
    by_cases hwhole : (src + length) % 4 ≠ (dst + length) % 4 ∨ length ≤ 4
    · rw [if_pos hwhole, lead length (by omega) le_rfl, Nat.sub_self,
        backward_words hlt (by omega) (by omega), if_neg (by omega), if_neg (by omega)]
      rfl
    · rw [if_neg hwhole, lead _ (by omega) (by omega), backward_words hlt (by omega) (by omega)]
      congr 1
      split_ifs <;> omega
  · rw [if_neg hmis, backward_words hlt le_rfl (by omega)]
    congr 1
    split_ifs <;> omega

/-- `z_memmove` moves `length` bytes faithfully, under any overlap, and then the bytes
that the last word store takes along. -/
theorem zMemmove_eq (m : Memory) (dst src length : ℕ) :
    zMemmove m dst src length = (moved m dst src 0 (length + overrun dst src length), dst) := by
  unfold zMemmove
  split_ifs with h0 hlt
  · congr 1
    funext x
    have hw : overrun dst src length = 0 := if_neg (by unfold ReachesWordLoop wsize; omega)
    rw [moved_apply, hw]
    split_ifs with hx
    · congr 1
      omega
    · rfl
  · rw [copyForward_eq m hlt (by omega)]
  · rw [copyBackward_eq m (by omega) (by omega)]

/-- The addresses that a copy stores to. -/
def stored (dst0 src0 length : ℕ) : List ℕ :=
  if dst0 = src0 then [] else (List.range (length + overrun dst0 src0 length)).map (dst0 + ·)

theorem mem_stored {dst src length x : ℕ} (h : dst ≠ src) :
    x ∈ stored dst src length ↔ dst ≤ x ∧ x < dst + (length + overrun dst src length) := by
  rw [stored, if_neg h, List.mem_map]
  constructor
  · rintro ⟨i, hi, rfl⟩
    have := List.mem_range.mp hi
    omega
  · rintro ⟨hle, hlt⟩
    exact ⟨x - dst, List.mem_range.mpr (by omega), by omega⟩

theorem mem_stored_iff_changes (dst src length x : ℕ) :
    x ∈ stored dst src length ↔ ∃ m, (zMemmove m dst src length).1 x ≠ m x := by
  by_cases hsame : dst = src
  · refine iff_of_false (by simp [stored, hsame]) ?_
    rintro ⟨m, hm⟩
    exact hm (by simp [zMemmove, hsame])
  · rw [mem_stored hsame]
    simp only [zMemmove_eq, moved_apply, Nat.add_zero]
    constructor
    · intro hx
      refine ⟨fun y => if y = x then 1 else 0, ?_⟩
      have hne : src + (x - dst) ≠ x := by omega
      simp [if_pos hx, hne]
    · rintro ⟨m, hm⟩
      by_contra hx
      exact hm (if_neg hx)

structure BlockMoved (m m' : Memory) (dst src length : ℕ) : Prop where
  inside : ∀ i < length, m' (dst + i) = m (src + i)
  outside : ∀ x, x < dst ∨ dst + length ≤ x → m' x = m x

theorem zMemmove_inside (m : Memory) (dst src length : ℕ) :
    ∀ i < length, (zMemmove m dst src length).1 (dst + i) = m (src + i) := by
  intro i hi
  rw [zMemmove_eq]
  dsimp only
  rw [moved_apply, if_pos (by omega)]
  congr 1
  omega

theorem overrun_le (dst src length : ℕ) : overrun dst src length ≤ wsize := by
  unfold overrun
  split_ifs <;> omega

theorem zMemmove_outside (m : Memory) (dst src length : ℕ) {x : ℕ}
    (hx : x < dst ∨ dst + length + wsize ≤ x) : (zMemmove m dst src length).1 x = m x := by
  have := overrun_le dst src length
  rw [zMemmove_eq]
  dsimp only
  rw [moved_apply, if_neg (by omega)]

/-- The copy meets its purpose exactly when no word is transferred or the bytes past both
blocks agree as far as the last word store reaches. -/
theorem memmove_exact_iff (m : Memory) (dst src length : ℕ) :
    BlockMoved m (zMemmove m dst src length).1 dst src length ↔
      (ReachesWordLoop dst src length →
        ∀ j < wsize - (src + length) % wsize, m (src + length + j) = m (dst + length + j)) := by
  constructor
  · intro h hw j hj
    have hx := h.outside (dst + length + j) (by omega)
    rw [zMemmove_eq] at hx
    dsimp only at hx
    rw [moved_apply, overrun, if_pos hw, if_pos (by omega)] at hx
    rw [← hx]
    congr 1
    omega
  · intro h
    refine ⟨zMemmove_inside m dst src length, fun x hx => ?_⟩
    rw [zMemmove_eq]
    dsimp only
    rw [moved_apply, overrun]
    split_ifs with hw hin hin
    · obtain ⟨j, rfl⟩ := Nat.exists_eq_add_of_le (show dst + length ≤ x by omega)
      rw [← h hw j (by omega)]
      congr 1
      omega
    · rfl
    · omega
    · rfl

/-- Four bytes between aligned addresses: the store takes the next four along. -/
theorem memmove_overruns :
    ¬ ∀ (m : Memory) (dst src length : ℕ),
      BlockMoved m (zMemmove m dst src length).1 dst src length := by
  intro h
  have hx := (h (fun x => UInt8.ofNat x) 16 32 4).outside 20 (by omega)
  rw [zMemmove_eq] at hx
  revert hx
  decide

end StringMemmove

import Mathlib.Data.List.Basic
import Mathlib.Algebra.Group.Nat.Defs
import Mathlib.Tactic.SplitIfs

/-! # Byte-addressed memory

Addresses are naturals: an object occupies a range that does not wrap. Blocks of bytes
are read and written as lists, integers are little-endian. -/
namespace ByteMemory

abbrev Memory := ℕ → UInt8

def load (m : Memory) (a n : ℕ) : List UInt8 := (List.range' a n).map m

def store (m : Memory) (a : ℕ) (bs : List UInt8) : Memory :=
  fun x => if h : a ≤ x ∧ x < a + bs.length then bs.get ⟨x - a, by omega⟩ else m x

@[simp] theorem length_load (m : Memory) (a n : ℕ) : (load m a n).length = n := by
  simp [load]

@[simp] theorem load_zero (m : Memory) (a : ℕ) : load m a 0 = [] := rfl

theorem load_add (m : Memory) (a n k : ℕ) :
    load m a (n + k) = load m a n ++ load m (a + n) k := by
  simp only [load]
  rw [← List.map_append, List.range'_append_1]

theorem getElem_load (m : Memory) (a n i : ℕ) (h : i < (load m a n).length) :
    (load m a n)[i] = m (a + i) := by
  simp [load]

theorem load_congr {m m' : Memory} {a b n : ℕ} (h : ∀ i < n, m (a + i) = m' (b + i)) :
    load m a n = load m' b n := by
  apply List.ext_getElem
  · simp
  · intro i hi _
    rw [getElem_load, getElem_load]
    exact h i (by simpa using hi)

theorem load_inj {m m' : Memory} {a b n : ℕ} (h : load m a n = load m' b n) :
    ∀ i < n, m (a + i) = m' (b + i) := by
  intro i hi
  have ha : i < (load m a n).length := by simpa
  have hb : i < (load m' b n).length := by simpa
  have hm : (load m a n)[i] = (load m' b n)[i] := by simp only [h]
  simpa only [getElem_load] using hm

/-- `s` is the C string at `a`, without its NUL. -/
structure CStringAt (m : Memory) (a : ℕ) (s : List UInt8) : Prop where
  bytes : load m a (s.length + 1) = s ++ [0]
  noNul : 0 ∉ s

theorem load_cons (m : Memory) (a n : ℕ) : load m a (n + 1) = m a :: load m (a + 1) n := by
  simp only [load, List.range'_succ, List.map_cons]

theorem cStringAt_nil {m : Memory} {a : ℕ} : CStringAt m a [] ↔ m a = 0 := by
  constructor
  · intro h
    simpa [load_cons] using h.bytes
  · intro h
    exact ⟨by simp [load_cons, h], List.not_mem_nil⟩

theorem cStringAt_cons {m : Memory} {a : ℕ} {b : UInt8} {s : List UInt8} :
    CStringAt m a (b :: s) ↔ m a = b ∧ b ≠ 0 ∧ CStringAt m (a + 1) s := by
  constructor
  · rintro ⟨hbytes, hnul⟩
    rw [List.length_cons, load_cons, List.cons_append, List.cons.injEq] at hbytes
    rw [List.mem_cons, not_or] at hnul
    exact ⟨hbytes.1, Ne.symm hnul.1, hbytes.2, hnul.2⟩
  · rintro ⟨rfl, hb, hbytes, hnul⟩
    constructor
    · rw [List.length_cons, load_cons, hbytes, List.cons_append]
    · rw [List.mem_cons, not_or]
      exact ⟨Ne.symm hb, hnul⟩

theorem CStringAt.unique {m : Memory} {a : ℕ} {s t : List UInt8} (hs : CStringAt m a s)
    (ht : CStringAt m a t) : s = t := by
  induction s generalizing a t with
  | nil =>
    cases t with
    | nil => rfl
    | cons c t =>
      obtain ⟨hc, hne, -⟩ := cStringAt_cons.mp ht
      exact absurd (hc.symm.trans (cStringAt_nil.mp hs)) hne
  | cons b s ih =>
    obtain ⟨hb, hne, hs⟩ := cStringAt_cons.mp hs
    cases t with
    | nil => exact absurd (hb.symm.trans (cStringAt_nil.mp ht)) hne
    | cons c t =>
      obtain ⟨hc, -, ht⟩ := cStringAt_cons.mp ht
      rw [ih hs ht, hb.symm.trans hc]

theorem store_outside {m : Memory} {a x : ℕ} {bs : List UInt8}
    (h : x < a ∨ a + bs.length ≤ x) : store m a bs x = m x := by
  unfold store
  rw [dif_neg (by omega)]

theorem store_inside {m : Memory} {a i : ℕ} {bs : List UInt8} (h : i < bs.length) :
    store m a bs (a + i) = bs[i] := by
  unfold store
  rw [dif_pos (by omega)]
  simp

@[simp] theorem load_store_same (m : Memory) (a : ℕ) (bs : List UInt8) :
    load (store m a bs) a bs.length = bs := by
  apply List.ext_getElem
  · simp
  · intro i _ hi
    rw [getElem_load, store_inside hi]

theorem load_store_disjoint {m : Memory} {a b n : ℕ} {bs : List UInt8}
    (h : b + n ≤ a ∨ a + bs.length ≤ b) : load (store m a bs) b n = load m b n := by
  apply load_congr
  intro i hi
  exact store_outside (by omega)

@[simp] theorem store_nil (m : Memory) (a : ℕ) : store m a [] = m := by
  funext x
  exact store_outside (by simp only [List.length_nil]; omega)

theorem store_append (m : Memory) (a : ℕ) (bs cs : List UInt8) :
    store (store m a bs) (a + bs.length) cs = store m a (bs ++ cs) := by
  have hlen : (bs ++ cs).length = bs.length + cs.length := List.length_append
  funext x
  by_cases hx : a ≤ x ∧ x < a + (bs ++ cs).length
  · obtain ⟨i, rfl⟩ := Nat.exists_eq_add_of_le hx.1
    rw [store_inside (show i < (bs ++ cs).length by omega)]
    by_cases hi : i < bs.length
    · rw [store_outside (by omega), store_inside hi, List.getElem_append_left hi]
    · obtain ⟨j, rfl⟩ := Nat.exists_eq_add_of_le (Nat.le_of_not_lt hi)
      rw [← Nat.add_assoc, store_inside (by omega), List.getElem_append_right (by omega)]
      congr 1
      omega
  · rw [store_outside (by omega), store_outside (by omega), store_outside (by omega)]

theorem store_overwrite (m : Memory) (a : ℕ) {bs cs : List UInt8} (h : bs.length ≤ cs.length) :
    store (store m a bs) a cs = store m a cs := by
  funext x
  by_cases hx : a ≤ x ∧ x < a + cs.length
  · obtain ⟨i, rfl⟩ := Nat.exists_eq_add_of_le hx.1
    rw [store_inside (by omega), store_inside (by omega)]
  · rw [store_outside (by omega), store_outside (by omega), store_outside (by omega)]

/-- The memory in which `n` bytes from `s` have been moved to `d` at once. -/
def moveBytes (m : Memory) (d s n : ℕ) : Memory := store m d (load m s n)

theorem moveBytes_apply (m : Memory) (d s n x : ℕ) :
    moveBytes m d s n x = if d ≤ x ∧ x < d + n then m (s + (x - d)) else m x := by
  unfold moveBytes
  split_ifs with h
  · obtain ⟨i, rfl⟩ := Nat.exists_eq_add_of_le h.1
    rw [store_inside (by simpa using by omega), getElem_load]
    congr 2
    omega
  · exact store_outside (by simp only [length_load]; omega)

theorem moveBytes_add {m : Memory} {d s j k : ℕ} (h : s + j + k ≤ d ∨ d + j ≤ s + j) :
    moveBytes (moveBytes m d s j) (d + j) (s + j) k = moveBytes m d s (j + k) := by
  funext x
  rw [moveBytes_apply, moveBytes_apply m d s (j + k)]
  by_cases hx : d + j ≤ x ∧ x < d + j + k
  · rw [if_pos hx, if_pos (by omega), moveBytes_apply, if_neg (by omega)]
    congr 1
    omega
  · rw [if_neg hx, moveBytes_apply]
    by_cases hin : d ≤ x ∧ x < d + j
    · rw [if_pos hin, if_pos (by omega)]
    · rw [if_neg hin, if_neg (by omega)]

def leBytes : ℕ → ℕ → List UInt8
  | 0, _ => []
  | n + 1, v => UInt8.ofNat v :: leBytes n (v / 256)

def leValue : List UInt8 → ℕ
  | [] => 0
  | b :: bs => b.toNat + 256 * leValue bs

@[simp] theorem length_leBytes (n v : ℕ) : (leBytes n v).length = n := by
  induction n generalizing v with
  | zero => rfl
  | succ n ih => simp [leBytes, ih]

theorem leValue_leBytes (n v : ℕ) : leValue (leBytes n v) = v % 256 ^ n := by
  induction n generalizing v with
  | zero => simp [leBytes, leValue, Nat.mod_one]
  | succ n ih =>
    simp only [leBytes, leValue, ih, UInt8.toNat_ofNat']
    exact (Nat.pow_succ' (n := n) (m := 256) ▸ Nat.mod_mul).symm

theorem leBytes_leValue (bs : List UInt8) : leBytes bs.length (leValue bs) = bs := by
  induction bs with
  | nil => rfl
  | cons b bs ih =>
    have hb := b.toNat_lt
    have hd : (b.toNat + 256 * leValue bs) / 256 = leValue bs := by omega
    have hm : UInt8.ofNat (b.toNat + 256 * leValue bs) = b := by
      apply UInt8.toNat_inj.mp
      rw [UInt8.toNat_ofNat']
      omega
    simp only [List.length_cons, leValue, leBytes, hd, hm, ih]

theorem leValue_lt (bs : List UInt8) : leValue bs < 256 ^ bs.length := by
  induction bs with
  | nil => simp [leValue]
  | cons b bs ih =>
    have hb := b.toNat_lt
    simp only [leValue, List.length_cons, Nat.pow_succ']
    omega

/-- The `w`-bit integer (`w` a multiple of eight) whose bytes start at `a`. -/
def loadWord (w : ℕ) (m : Memory) (a : ℕ) : BitVec w := BitVec.ofNat w (leValue (load m a (w / 8)))

def storeWord (m : Memory) (a : ℕ) (v : BitVec w) : Memory := store m a (leBytes (w / 8) v.toNat)

theorem pow_256 {w : ℕ} (hw : w % 8 = 0) : (256 : ℕ) ^ (w / 8) = 2 ^ w := by
  rw [show (256 : ℕ) = 2 ^ 8 from rfl, ← Nat.pow_mul,
    Nat.mul_div_cancel' (Nat.dvd_of_mod_eq_zero hw)]

theorem loadWord_storeWord_same (m : Memory) (a : ℕ) (v : BitVec w) (hw : w % 8 = 0) :
    loadWord w (storeWord m a v) a = v := by
  have hp := pow_256 hw
  have hl := load_store_same m a (leBytes (w / 8) v.toNat)
  rw [length_leBytes] at hl
  unfold loadWord storeWord
  rw [hl, leValue_leBytes, hp, Nat.mod_eq_of_lt v.isLt]
  simp

theorem loadWord_congr {m m' : Memory} {a w : ℕ} (h : ∀ i < w / 8, m (a + i) = m' (a + i)) :
    loadWord w m a = loadWord w m' a := by
  rw [loadWord, load_congr h, loadWord]

theorem loadWord_storeWord_disjoint {m : Memory} {a b : ℕ} {v : BitVec w'}
    (h : b + w / 8 ≤ a ∨ a + w' / 8 ≤ b) :
    loadWord w (storeWord m a v) b = loadWord w m b := by
  unfold loadWord storeWord
  rw [load_store_disjoint (by simpa using h)]

theorem storeWord_outside {m : Memory} {a x : ℕ} {v : BitVec w}
    (h : x < a ∨ a + w / 8 ≤ x) : storeWord m a v x = m x :=
  store_outside (by simpa using h)

theorem leValue_append (bs cs : List UInt8) :
    leValue (bs ++ cs) = leValue bs + 256 ^ bs.length * leValue cs := by
  induction bs with
  | nil => simp [leValue]
  | cons b bs ih =>
    simp only [List.cons_append, leValue, ih, List.length_cons, Nat.pow_succ', Nat.mul_add,
      Nat.mul_assoc]
    omega

theorem loadWord_append (m : Memory) (a : ℕ) {v w : ℕ} (hv : v % 8 = 0) (hw : w % 8 = 0) :
    loadWord (v + w) m a = loadWord v m (a + w / 8) ++ loadWord w m a := by
  have hlow := leValue_lt (load m a (w / 8))
  have hhigh := leValue_lt (load m (a + w / 8) (v / 8))
  rw [length_load, pow_256 hw] at hlow
  rw [length_load, pow_256 hv] at hhigh
  have hsplit : (v + w) / 8 = w / 8 + v / 8 := by omega
  apply BitVec.eq_of_toNat_eq
  simp only [loadWord, BitVec.toNat_append, BitVec.toNat_ofNat, hsplit, load_add, leValue_append,
    length_load, pow_256 hw, Nat.mod_eq_of_lt hlow, Nat.mod_eq_of_lt hhigh]
  rw [Nat.mod_eq_of_lt, Nat.shiftLeft_eq, Nat.mul_comm _ (2 ^ w),
    ← Nat.two_pow_add_eq_or_of_lt hlow, Nat.add_comm]
  have hle : leValue (load m (a + w / 8) (v / 8)) + 1 ≤ 2 ^ v := hhigh
  have := Nat.mul_le_mul_left (2 ^ w) hle
  rw [Nat.pow_add, Nat.mul_comm (2 ^ v)]
  rw [Nat.mul_add] at this
  omega

theorem leBytes_loadWord (m : Memory) (a : ℕ) {w : ℕ} (hw : w % 8 = 0) :
    leBytes (w / 8) (loadWord w m a).toNat = load m a (w / 8) := by
  have hlt := leValue_lt (load m a (w / 8))
  have he := leBytes_leValue (load m a (w / 8))
  rw [length_load] at hlt he
  rw [loadWord, BitVec.toNat_ofNat, Nat.mod_eq_of_lt (pow_256 hw ▸ hlt), he]

theorem load_eq_of_loadWord_eq {m m' : Memory} {a b w : ℕ} (hw : w % 8 = 0)
    (h : loadWord w m a = loadWord w m' b) : load m a (w / 8) = load m' b (w / 8) := by
  rw [← leBytes_loadWord m a hw, ← leBytes_loadWord m' b hw, h]

theorem storeWord_loadWord (m m' : Memory) (a b w : ℕ) (hw : w % 8 = 0) :
    storeWord m a (loadWord w m' b) = store m a (load m' b (w / 8)) := by
  rw [storeWord, leBytes_loadWord m' b hw]

end ByteMemory

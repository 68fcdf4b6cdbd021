import LibSystemCall.DirentDevname
import LibSystemCall.PrintScratch

/-! # z_strncpy and z_strncat on a buffer

Offset 0 is the start of the buffer, and what lies behind the buffer has its bytes as well. A
string that is copied is in an object of its own. -/
namespace StringCopy

open ByteMemory DirentStream DirentDevname PrintScratch

/-- An object that starts with the given bytes. -/
def objectOf (bytes : List UInt8) : Memory := store (fun _ => 0) 0 bytes

/-- The bytes of a string literal, without its NUL. -/
def text (s : String) : List UInt8 := s.toList.map fun c => UInt8.ofNat c.toNat

/-- `while (n && (*cp++ = *str++) != '\0') --n` -/
def appendLoop (str : Memory) : ℕ → Object → ℕ → ℕ → Object
  | 0, dest, _, _ => dest
  | n + 1, dest, cp, s =>
    let dest := dest.put cp (str s)
    if str s ≠ 0 then appendLoop str n dest (cp + 1) (s + 1) else dest

/-- The search for the NUL of `dest` is not bounded by its size. -/
def zStrncat (fuel : ℕ) (dest : Object) (str : Memory) (n : ℕ) : Option Object :=
  (findNul dest.bytes 0 fuel 0).map fun cp => appendLoop str n dest cp 0

theorem objectOf_string {s : List UInt8} (h : 0 ∉ s) : CStringAt (objectOf (s ++ [0])) 0 s := by
  constructor
  · have hload := load_store_same (fun _ => 0) 0 (s ++ [0])
    rwa [List.length_append, List.length_singleton] at hload
  · exact h

theorem string_load {m : Memory} {a : ℕ} {t : List UInt8} (h : CStringAt m a t) :
    load m a t.length = t := (load_append_inj h.bytes).1

theorem string_nul {m : Memory} {a : ℕ} {t : List UInt8} (h : CStringAt m a t) :
    m (a + t.length) = 0 := by
  have hload := (load_append_inj h.bytes).2
  rw [List.length_singleton, load_cons] at hload
  exact (List.cons.inj hload).1

/-- A literal is the list of its characters. To compute `toList` would decode its bytes. -/
theorem literal_noNul {cs : List Char} (h : 0 ∉ cs.map fun c => UInt8.ofNat c.toNat) :
    0 ∉ text (String.ofList cs) := by
  rwa [text, String.toList_ofList]

theorem entry_noNul {table : List String} (h : ∀ s ∈ table, 0 ∉ text s) (i : ℕ) :
    0 ∉ text (table.getD i "") := by
  by_cases hi : i < table.length
  · rw [List.getD_eq_getElem _ _ hi]
    exact h _ (List.getElem_mem hi)
  · rw [List.getD_eq_default _ _ (Nat.le_of_not_lt hi)]
    exact List.not_mem_nil

section Copy
variable {src : Memory} {count d s i : ℕ} {dest : Object} {t : List UInt8}

theorem zStrncpy_byte (h : CStringAt src s t) (hi : i < count) :
    (zStrncpy src count dest d s).bytes (d + i) = t.getD i 0 := by
  induction count generalizing dest d s i t with
  | zero => omega
  | succ count ih =>
    cases i with
    | zero =>
      have hfirst : (zStrncpy src (count + 1) dest d s).bytes d = src s := copyLoop_first
      refine hfirst.trans ?_
      cases t with
      | nil => exact cStringAt_nil.mp h
      | cons b t => exact (cStringAt_cons.mp h).1
    | succ i =>
      have hstep : d + (i + 1) = d + 1 + i := by omega
      rw [hstep, zStrncpy, copyLoop]
      cases t with
      | nil =>
        rw [if_neg (not_not.mpr (cStringAt_nil.mp h))]
        exact ih h (by omega)
      | cons b t =>
        obtain ⟨hb, hne, htail⟩ := cStringAt_cons.mp h
        rw [hb, if_pos hne]
        exact ih htail (by omega)

theorem mem_zStrncpy_written :
    i ∈ (zStrncpy src count dest d s).written ↔ i ∈ dest.written ∨ d ≤ i ∧ i < d + count :=
  mem_copyLoop_written

theorem zStrncpy_full (h : CStringAt src s t) (hlen : count ≤ t.length) (hi : i < count) :
    (zStrncpy src count dest d s).bytes (d + i) ≠ 0 := by
  have hget : t.getD i 0 ∈ t := by
    rw [List.getD_eq_getElem _ _ (by omega)]
    exact List.getElem_mem _
  rw [zStrncpy_byte h hi]
  intro hnul
  exact h.noNul (hnul ▸ hget)

end Copy

section Append
variable {str : Memory} {n cp s i : ℕ} {dest : Object} {t : List UInt8}

theorem mem_appendLoop_written (h : CStringAt str s t) :
    i ∈ (appendLoop str n dest cp s).written ↔
      i ∈ dest.written ∨ cp ≤ i ∧ i < cp + min n (t.length + 1) := by
  induction n generalizing dest cp s t with
  | zero =>
    rw [appendLoop, Nat.zero_min]
    exact ⟨.inl, fun h => h.resolve_right (by omega)⟩
  | succ n ih =>
    rw [appendLoop]
    cases t with
    | nil =>
      have hone : cp ≤ i ∧ i < cp + min (n + 1) (0 + 1) ↔ i = cp := by omega
      rw [if_neg (not_not.mpr (cStringAt_nil.mp h)), mem_put_written, List.length_nil, hone,
        or_comm]
    | cons b t =>
      obtain ⟨hb, hne, htail⟩ := cStringAt_cons.mp h
      have hmore : cp ≤ i ∧ i < cp + min (n + 1) (t.length + 1 + 1) ↔
          i = cp ∨ cp + 1 ≤ i ∧ i < cp + 1 + min n (t.length + 1) := by omega
      simp only [hb, if_pos hne, ih htail, mem_put_written, List.length_cons, hmore]
      rw [or_assoc, or_left_comm]

theorem appendLoop_below (h : i < cp) :
    (appendLoop str n dest cp s).bytes i = dest.bytes i := by
  induction n generalizing dest cp s with
  | zero => rfl
  | succ n ih =>
    have hput := put_bytes_ne (o := dest) (str s) (show i ≠ cp by omega)
    rw [appendLoop]
    split
    · rw [ih (by omega), hput]
    · exact hput

theorem appendLoop_string (h : CStringAt str s t) (hn : t.length < n) :
    CStringAt (appendLoop str n dest cp s).bytes cp t := by
  induction n generalizing dest cp s t with
  | zero => omega
  | succ n ih =>
    rw [appendLoop]
    cases t with
    | nil =>
      have hnul := cStringAt_nil.mp h
      rw [if_neg (not_not.mpr hnul), cStringAt_nil, put_bytes_self, hnul]
    | cons b t =>
      obtain ⟨hb, hne, htail⟩ := cStringAt_cons.mp h
      rw [List.length_cons] at hn
      simp only [hb, if_pos hne]
      refine cStringAt_cons.mpr ⟨?_, hne, ih htail (by omega)⟩
      rw [appendLoop_below (Nat.lt_succ_self cp), put_bytes_self]

theorem appended_string {u : List UInt8} (hu : CStringAt dest.bytes 0 u)
    (h : CStringAt str s t) (hn : t.length < n) :
    CStringAt (appendLoop str n dest u.length s).bytes 0 (u ++ t) := by
  have hsame : load (appendLoop str n dest u.length s).bytes 0 u.length =
      load dest.bytes 0 u.length := by
    apply load_congr
    intro i hi
    exact appendLoop_below (by omega)
  refine cStringAt_append (hsame.trans (string_load hu)) hu.noNul ?_
  rw [Nat.zero_add]
  exact appendLoop_string h hn

end Append

section Search
variable {m : Memory} {fuel i k : ℕ}

theorem findNul_first (h : findNul m 0 fuel i = some k) :
    m k = 0 ∧ ∀ j, i ≤ j → j < k → m j ≠ 0 := by
  induction fuel generalizing i with
  | zero => cases h
  | succ fuel ih =>
    rw [findNul, Nat.zero_add] at h
    split at h
    case isTrue hnul =>
      obtain rfl := Option.some.inj h
      exact ⟨hnul, fun j hij hj => absurd hj (by omega)⟩
    case isFalse hne =>
      obtain ⟨hnul, hrest⟩ := ih h
      refine ⟨hnul, fun j hij hj => ?_⟩
      by_cases hji : j = i
      · rw [hji]
        exact hne
      · exact hrest j (by omega) hj

theorem zStrncat_some {dest o : Object} {str : Memory} {n : ℕ}
    (h : zStrncat fuel dest str n = some o) :
    ∃ cp, dest.bytes cp = 0 ∧ (∀ j < cp, dest.bytes j ≠ 0) ∧ o = appendLoop str n dest cp 0 := by
  obtain ⟨cp, hcp, rfl⟩ := Option.map_eq_some_iff.mp h
  obtain ⟨hnul, hfirst⟩ := findNul_first hcp
  exact ⟨cp, hnul, fun j hj => hfirst j (Nat.zero_le j) hj, rfl⟩

theorem first_nul {u : List UInt8} (hu : CStringAt m 0 u) (hnul : m k = 0)
    (hfirst : ∀ j < k, m j ≠ 0) : k = u.length := by
  have hend := string_nul hu
  rw [Nat.zero_add] at hend
  rcases Nat.lt_trichotomy k u.length with hlt | heq | hgt
  · -- a byte of the string
    have hmem : m k ∈ load m 0 u.length := List.mem_map_of_mem (by simpa using hlt)
    rw [string_load hu, hnul] at hmem
    exact absurd hmem hu.noNul
  · exact heq
  · exact absurd hend (hfirst _ hgt)

theorem zStrncat_string {dest : Object} {str : Memory} {n : ℕ} {u : List UInt8}
    (hu : CStringAt dest.bytes 0 u) (hfuel : u.length < fuel) :
    zStrncat fuel dest str n = some (appendLoop str n dest u.length 0) := by
  have hfound : findNul dest.bytes 0 fuel 0 = some (0 + u.length) := findNul_eq hu hfuel
  rw [zStrncat, hfound, Nat.zero_add, Option.map_some]

end Search

end StringCopy

import LibSystemCall.PrintDigits

/-! # The number printers in memory

`z_itoa` and `z_xtoa` append digit by digit behind the NUL they search for; `kprintn`
fills a buffer of 22 characters and replays it backwards. An access outside of the
buffer has no result. -/
namespace PrintScratch

open Numerals ByteMemory PrintBuffer PrintDigits
open PrintFormat (numeralText numeralText_of_lt numeralText_of_le digitChar)

/-- `for (i = 0; buf[i] != '\0'; i++)`, from `i` on. -/
def findNul (m : Memory) (buf : ℕ) : ℕ → ℕ → Option ℕ
  | 0, _ => none
  | fuel + 1, i => if m (buf + i) = 0 then some i else findNul m buf fuel (i + 1)

/-- `char` is what the function makes of a digit. -/
def writeNumeral (base : BitVec 32) (hbase : 1 < base.toNat) (char : BitVec 32 → BitVec 32)
    (fuel : ℕ) (m : Memory) (buf : ℕ) (n : BitVec 32) : Option Memory :=
  if n < base then some (store m buf [UInt8.ofBitVec ((char n).setWidth 8), 0])
  else
    (writeNumeral base hbase char fuel m buf (n / base)).bind fun m =>
      (findNul m buf fuel 0).map fun i =>
        store m (buf + i) [UInt8.ofBitVec ((char (n % base)).setWidth 8), 0]
termination_by n.toNat
decreasing_by
  rename_i h
  rw [BitVec.lt_def] at h
  rw [BitVec.toNat_udiv]
  exact Nat.div_lt_self (by omega) hbase

def zItoa (fuel : ℕ) (m : Memory) (buf : ℕ) (n : BitVec 32) : Option Memory :=
  writeNumeral 10 (by decide) (fun d => d + 48) fuel m buf n

def zXtoa (fuel : ℕ) (m : Memory) (buf : ℕ) (n : BitVec 32) : Option Memory :=
  writeNumeral 16 (by decide) (fun d => if d < 10 then d + 48 else d - 10 + 97) fuel m buf n

theorem findNul_eq {m : Memory} {buf i fuel : ℕ} {s : List UInt8} (h : CStringAt m (buf + i) s)
    (hfuel : s.length < fuel) : findNul m buf fuel i = some (i + s.length) := by
  induction s generalizing i fuel with
  | nil =>
    cases fuel with
    | zero => exact absurd hfuel (by simp)
    | succ fuel =>
      rw [findNul, if_pos (cStringAt_nil.mp h)]
      rfl
  | cons b s ih =>
    cases fuel with
    | zero => exact absurd hfuel (by simp)
    | succ fuel =>
      obtain ⟨hb, hne, hs⟩ := cStringAt_cons.mp h
      rw [List.length_cons] at hfuel ⊢
      rw [findNul, if_neg (hb ▸ hne), ih hs (by omega)]
      congr 1
      omega

theorem append_digit (m : Memory) (buf : ℕ) {t : List UInt8} (ht : 0 ∉ t) {fuel : ℕ}
    (hfuel : t.length < fuel) (ch : UInt8) :
    ((findNul (store m buf (t ++ [0])) buf fuel 0).map fun i =>
        store (store m buf (t ++ [0])) (buf + i) [ch, 0]) =
      some (store m buf (t ++ [ch] ++ [0])) := by
  have hstring : CStringAt (store m buf (t ++ [0])) (buf + 0) t := by
    constructor
    · have hload := load_store_same m buf (t ++ [0])
      rwa [List.length_append, List.length_singleton] at hload
    · exact ht
  rw [findNul_eq hstring hfuel, Option.map_some, Nat.zero_add, ← store_append,
    store_overwrite _ _ (by simp), store_append, List.append_assoc]
  rfl

theorem nul_not_mem_numeralText {b : ℕ} (hb : 1 < b) (hb16 : b ≤ 16) (n : ℕ) :
    0 ∉ numeralText b n := by
  intro h
  obtain ⟨d, hd, hzero⟩ := List.mem_map.mp h
  have hlt := numeral_lt hb n d hd
  have hall : ∀ d < 16, digitChar d ≠ 0 := by decide
  exact hall d (by omega) hzero

theorem writeNumeral_eq {base : BitVec 32} {hbase : 1 < base.toNat} (h16 : base.toNat ≤ 16)
    {char : BitVec 32 → BitVec 32}
    (hchar : ∀ d < base, UInt8.ofBitVec ((char d).setWidth 8) = digitChar d.toNat)
    {fuel : ℕ} (m : Memory) (buf : ℕ) (n : BitVec 32)
    (hfuel : (numeral base.toNat n.toNat).length ≤ fuel) :
    writeNumeral base hbase char fuel m buf n =
      some (store m buf (numeralText base.toNat n.toNat ++ [0])) := by
  induction hk : n.toNat using Nat.strong_induction_on generalizing n with
  | _ k ih =>
    subst hk
    rw [writeNumeral]
    by_cases h : n < base
    · rw [if_pos h, hchar n h, numeralText_of_lt h]
      rfl
    · have hle : base.toNat ≤ n.toNat := Nat.le_of_not_lt h
      have hdiv : (n / base).toNat = n.toNat / base.toNat := BitVec.toNat_udiv
      have hmod : (n % base).toNat = n.toNat % base.toNat := BitVec.toNat_umod
      have hlt : n % base < base := BitVec.umod_lt n (show 0 < base.toNat by omega)
      rw [numeral_of_le hbase hle, List.length_append, List.length_singleton, ← hdiv] at hfuel
      have hrest := ih _ (hdiv ▸ Nat.div_lt_self (by omega) hbase) (n / base) (by omega) rfl
      have hdigit := append_digit m buf (nul_not_mem_numeralText hbase h16 (n / base).toNat)
        (show (numeralText base.toNat (n / base).toNat).length < fuel by
          rw [length_numeralText]; omega) (digitChar (n.toNat % base.toNat))
      rw [if_neg h, hrest, Option.bind_some, hchar _ hlt, hmod, hdigit, hdiv,
        numeralText_of_le hbase hle]

theorem length_numeral_word {b : ℕ} (hb : 10 ≤ b) (n : BitVec 32) :
    (numeral b n.toNat).length ≤ 10 := by
  apply length_numeral_le (by omega) (by decide)
  calc n.toNat < 2 ^ 32 := n.isLt
    _ ≤ 10 ^ 10 := by decide
    _ ≤ b ^ 10 := Nat.pow_le_pow_left hb 10

theorem zItoa_eq {fuel : ℕ} (hfuel : 10 ≤ fuel) (m : Memory) (buf : ℕ) (n : BitVec 32) :
    zItoa fuel m buf n = some (store m buf (numeralText 10 n.toNat ++ [0])) := by
  apply writeNumeral_eq (by decide)
  · intro d hd
    have hall : ∀ k < 10, UInt8.ofBitVec ((BitVec.ofNat 32 k + 48).setWidth 8) = digitChar k := by
      decide
    have h := hall d.toNat hd
    rwa [BitVec.ofNat_toNat, BitVec.setWidth_eq] at h
  · exact (length_numeral_word (by decide) n).trans hfuel

theorem zXtoa_eq {fuel : ℕ} (hfuel : 10 ≤ fuel) (m : Memory) (buf : ℕ) (n : BitVec 32) :
    zXtoa fuel m buf n = some (store m buf (numeralText 16 n.toNat ++ [0])) := by
  apply writeNumeral_eq (by decide)
  · intro d hd
    have hall : ∀ k < 16, UInt8.ofBitVec ((if BitVec.ofNat 32 k < 10 then BitVec.ofNat 32 k + 48
        else BitVec.ofNat 32 k - 10 + 97).setWidth 8) = digitChar k := by
      decide
    have h := hall d.toNat hd
    rwa [BitVec.ofNat_toNat, BitVec.setWidth_eq] at h
  · exact (length_numeral_word (by decide) n).trans hfuel

/-- `sizeof(z_int64) * 8 / 3 + 1` -/
def scratchSize : ℕ := 8 * 8 / 3 + 1

/-- `p` is an offset from `buf`. -/
structure Scratch where
  buf : Memory
  p : ℕ

def Scratch.push (s : Scratch) (ch : UInt8) : Option Scratch :=
  if s.p < scratchSize then some ⟨store s.buf s.p [ch], s.p + 1⟩ else none

/-- The first loop. Each round moves `p`, so one round more than there are characters
is never reached. -/
def fill (base : BitVec 64) : ℕ → BitVec 64 → Scratch → Option Scratch
  | 0, _, _ => none
  | rounds + 1, ul, s =>
    (s.push (digitChar (ul % base).toNat)).bind fun s =>
      let ul := ul / base
      if ul ≠ 0 then fill base rounds ul s else some s

def replay (fd : ℤ) (buf : Memory) : ℕ → PrintState → Option PrintState
  | 0, _ => none
  | p + 1, s =>
    let s := putcharfd s fd (buf p)
    if p > 0 then replay fd buf p s else some s

/-- `buf` is what the automatic buffer holds on entry. -/
def kprintn (buf : Memory) (s : PrintState) (fd : ℤ) (ul : BitVec 64) (base : BitVec 32) :
    Option PrintState :=
  (fill (base.signExtend 64) (scratchSize + 1) ul ⟨buf, 0⟩).bind fun scratch =>
    replay fd scratch.buf scratch.p s

theorem fill_eq {base : BitVec 64} (hbase : 1 < base.toNat) {rounds : ℕ} {ul : BitVec 64}
    {s : Scratch} (hrounds : (numeral base.toNat ul.toNat).length ≤ rounds)
    (hfit : s.p + (numeral base.toNat ul.toNat).length ≤ scratchSize) :
    fill base rounds ul s =
      some ⟨store s.buf s.p (numeralText base.toNat ul.toNat).reverse,
        s.p + (numeral base.toNat ul.toNat).length⟩ := by
  induction rounds generalizing ul s with
  | zero =>
    have := length_numeral_pos hbase ul.toNat
    omega
  | succ rounds ih =>
    have hdiv : (ul / base).toNat = ul.toNat / base.toNat := BitVec.toNat_udiv
    have hmod : (ul % base).toNat = ul.toNat % base.toNat := BitVec.toNat_umod
    have hpos := length_numeral_pos hbase ul.toNat
    have hzero : ul / base = 0 ↔ ul.toNat < base.toNat := by
      rw [← BitVec.toNat_inj, hdiv]
      exact Nat.div_eq_zero_iff.trans (or_iff_right (by omega))
    rw [fill, Scratch.push, if_pos (by omega), Option.bind_some, hmod]
    by_cases h : ul.toNat < base.toNat
    · rw [numeralText_of_lt h, numeral_of_lt h, Nat.mod_eq_of_lt h,
        if_neg (not_not.mpr (hzero.mpr h))]
      rfl
    · have hle : base.toNat ≤ ul.toNat := Nat.le_of_not_lt h
      have hlen : (numeral base.toNat ul.toNat).length =
          (numeral base.toNat (ul / base).toNat).length + 1 := by
        rw [numeral_of_le hbase hle, List.length_append, List.length_singleton, hdiv]
      have htext : (numeralText base.toNat ul.toNat).reverse =
          digitChar (ul.toNat % base.toNat) ::
            (numeralText base.toNat (ul / base).toNat).reverse := by
        rw [numeralText_of_le hbase hle, List.reverse_concat, hdiv]
      have hstore := store_append s.buf s.p [digitChar (ul.toNat % base.toNat)]
        (numeralText base.toNat (ul / base).toNat).reverse
      rw [List.length_singleton, List.singleton_append] at hstore
      have hrest := @ih (ul / base)
        ⟨store s.buf s.p [digitChar (ul.toNat % base.toNat)], s.p + 1⟩ (by omega)
        (by simp only; omega)
      rw [if_pos (mt hzero.mp h), hrest, hstore, htext, hlen]
      simp only [Nat.add_assoc, Nat.add_comm 1]

theorem replay_eq (fd : ℤ) (buf : Memory) {p : ℕ} (hp : 0 < p) (s : PrintState) :
    replay fd buf p s = some (putAll s fd (load buf 0 p).reverse) := by
  induction p generalizing s with
  | zero => exact absurd hp (by decide)
  | succ p ih =>
    have hload : (load buf 0 (p + 1)).reverse = buf p :: (load buf 0 p).reverse := by
      rw [load_add, load_cons, load_zero, Nat.zero_add, List.reverse_append]
      rfl
    rw [replay, hload, putAll_cons]
    by_cases h : p > 0
    · rw [if_pos h, ih h]
    · obtain rfl : p = 0 := by omega
      rw [if_neg h]
      rfl

theorem kprintn_eq (buf : Memory) (s : PrintState) (fd : ℤ) (ul : BitVec 64) {base : BitVec 32}
    (hbase : 8 ≤ base.toInt) :
    kprintn buf s fd ul base = some (putAll s fd (numeralText base.toNat ul.toNat)) := by
  have hext : (base.signExtend 64).toNat = base.toNat := by
    have hmsb : base.msb = false := by
      rw [BitVec.msb_eq_toInt, decide_eq_false_iff_not]
      omega
    rw [BitVec.signExtend_eq_setWidth_of_msb_false hmsb, BitVec.toNat_setWidth_of_le (by decide)]
  have hle : 8 ≤ base.toNat := by
    rw [BitVec.toInt_eq_toNat_cond] at hbase
    split at hbase <;> omega
  have hlen : (numeral base.toNat ul.toNat).length ≤ scratchSize := by
    apply length_numeral_le (by omega) (by decide)
    calc ul.toNat < 2 ^ 64 := ul.isLt
      _ ≤ 8 ^ scratchSize := by decide
      _ ≤ base.toNat ^ scratchSize := Nat.pow_le_pow_left hle scratchSize
  have hpos := length_numeral_pos (show 1 < base.toNat by omega) ul.toNat
  rw [kprintn, fill_eq (by omega) (by rw [hext]; omega) (by rw [hext]; simpa using hlen),
    Option.bind_some, hext, Nat.zero_add, replay_eq _ _ hpos]
  have hload := load_store_same buf 0 (numeralText base.toNat ul.toNat).reverse
  rw [List.length_reverse, length_numeralText] at hload
  rw [hload, List.reverse_reverse]

/-! The printers on lists, which the formats are described with, print the same. -/

theorem zItoa_refines {fuel : ℕ} (hfuel : 10 ≤ fuel) (m : Memory) (buf : ℕ) (n : BitVec 32) :
    zItoa fuel m buf n = some (store m buf (PrintScan.zItoa n ++ [0])) := by
  rw [zItoa_eq hfuel, PrintDigits.zItoa_eq]

theorem zXtoa_refines {fuel : ℕ} (hfuel : 10 ≤ fuel) (m : Memory) (buf : ℕ) (n : BitVec 32) :
    zXtoa fuel m buf n = some (store m buf (PrintScan.zXtoa n ++ [0])) := by
  rw [zXtoa_eq hfuel, PrintDigits.zXtoa_eq]

theorem kprintn_refines (buf : Memory) (s : PrintState) (fd : ℤ) (ul : BitVec 64)
    {base : BitVec 32} (hbase : 8 ≤ base.toInt) :
    kprintn buf s fd ul base = some (PrintFormat.kprintn s fd ul base.toNat) := by
  have hone : 1 < base.toNat := by
    rw [BitVec.toInt_eq_toNat_cond] at hbase
    split at hbase <;> omega
  rw [kprintn_eq _ _ _ _ hbase, PrintFormat.kprintn_eq _ _ _ hone]

/-- `t` spells the numeral of `n`, with the characters of the table in `kprintn`. -/
def Spells (base n : ℕ) (t : List UInt8) : Prop :=
  ∃ ds, IsNumeral base n ds ∧ t = ds.map digitChar

theorem spells_numeralText {base : ℕ} (hbase : 1 < base) (n : ℕ) :
    Spells base n (numeralText base n) := ⟨_, isNumeral_numeral hbase n, rfl⟩

/-- One numeral for all the printers, and room for it in the buffer of `kprintn`. -/
theorem printers_spell_numeral {fuel : ℕ} (hfuel : 10 ≤ fuel) {base : BitVec 32}
    (hbase : base = 8 ∨ base = 10 ∨ base = 16) (m : Memory) (buf : ℕ) (n : BitVec 32)
    (scratch : Memory) (s : PrintState) (fd : ℤ) (ul : BitVec 64) :
    (∃ t, Spells 10 n.toNat t ∧ zItoa fuel m buf n = some (store m buf (t ++ [0])) ∧
        kprintn scratch s fd (n.setWidth 64) 10 = some (putAll s fd t)) ∧
      (∃ t, Spells 16 n.toNat t ∧ zXtoa fuel m buf n = some (store m buf (t ++ [0])) ∧
        kprintn scratch s fd (n.setWidth 64) 16 = some (putAll s fd t)) ∧
      ∃ t, Spells base.toNat ul.toNat t ∧
        kprintn scratch s fd ul base = some (putAll s fd t) := by
  have hwide : (n.setWidth 64).toNat = n.toNat := BitVec.toNat_setWidth_of_le (by decide)
  refine ⟨⟨_, spells_numeralText (by decide) _, zItoa_eq hfuel m buf n, ?_⟩,
    ⟨_, spells_numeralText (by decide) _, zXtoa_eq hfuel m buf n, ?_⟩, ?_⟩
  · rw [kprintn_eq _ _ _ _ (by decide), hwide]
    rfl
  · rw [kprintn_eq _ _ _ _ (by decide), hwide]
    rfl
  · have hle : 8 ≤ base.toInt ∧ 1 < base.toNat := by
      rcases hbase with rfl | rfl | rfl <;> decide
    exact ⟨_, spells_numeralText hle.2 _, kprintn_eq _ _ _ _ hle.1⟩

/-- The widest numeral: 2 ^ 64 - 1 in octal. -/
theorem all_ones_spelled :
    (∃ t, Spells 10 (255 : BitVec 32).toNat t ∧
        zItoa 10 (fun _ => 0) 0 255 = some (store (fun _ => 0) 0 (t ++ [0])) ∧
        kprintn (fun _ => 0) initial 1 ((255 : BitVec 32).setWidth 64) 10 =
          some (putAll initial 1 t)) ∧
      (∃ t, Spells 16 (255 : BitVec 32).toNat t ∧
        zXtoa 10 (fun _ => 0) 0 255 = some (store (fun _ => 0) 0 (t ++ [0])) ∧
        kprintn (fun _ => 0) initial 1 ((255 : BitVec 32).setWidth 64) 16 =
          some (putAll initial 1 t)) ∧
      ∃ t, Spells (8 : BitVec 32).toNat (-1 : BitVec 64).toNat t ∧
        kprintn (fun _ => 0) initial 1 (-1) 8 = some (putAll initial 1 t) :=
  printers_spell_numeral (by decide) (Or.inl rfl) (fun _ => 0) 0 255 (fun _ => 0) initial 1 (-1)

end PrintScratch

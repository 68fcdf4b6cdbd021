import LibSystemCall.PrintScan

/-! # Numbers as text

`z_itoa` and `z_xtoa` write the numeral of a number, and `z_atoi` has the value of the
digits it reads, both modulo 2 ^ 32. -/
namespace PrintDigits

open Numerals PrintFormat PrintScan

theorem toa_eq {base : ℕ} (hbase : 1 < base) (n : ℕ) : toa base hbase n = numeralText base n := by
  induction n using numeral_induction hbase with
  | one n h =>
    rw [toa, if_pos h, numeralText_of_lt h]
  | more n h ih =>
    rw [toa, if_neg (Nat.not_lt.mpr h), ih, numeralText_of_le hbase h]

theorem zItoa_eq (n : BitVec 32) : zItoa n = numeralText 10 n.toNat := toa_eq _ _

theorem zXtoa_eq (n : BitVec 32) : zXtoa n = numeralText 16 n.toNat := toa_eq _ _

@[simp] theorem length_numeralText (b n : ℕ) : (numeralText b n).length = (numeral b n).length :=
  List.length_map _

theorem numeralText_ne_nil {b : ℕ} (hb : 1 < b) (n : ℕ) : numeralText b n ≠ [] := by
  intro h
  exact numeral_ne_nil hb n (List.map_eq_nil_iff.mp h)

theorem length_numeralText_word {b n : ℕ} (hb : 1 < b) (h : n < 2 ^ 32) :
    (numeralText b n).length ≤ 32 := by
  rw [length_numeralText]
  apply length_numeral_le hb (by decide)
  exact h.trans_le (Nat.pow_le_pow_left hb 32)

def digitValue (c : UInt8) : ℕ := c.toNat - 48

def decimalValue (ds : List UInt8) : ℕ := value 10 (ds.map digitValue)

def AllDigits (ds : List UInt8) : Prop := ∀ c ∈ ds, zIsdigit c

theorem zIsdigit_digitChar : ∀ d < 10, zIsdigit (digitChar d) := by decide

theorem digitValue_digitChar : ∀ d < 10, digitValue (digitChar d) = d := by decide

theorem le_of_zIsdigit {c : UInt8} (h : zIsdigit c) : 48 ≤ c.toNat := by
  simp only [zIsdigit, Bool.and_eq_true, decide_eq_true_eq] at h
  exact UInt8.le_iff_toNat_le.mp h.1

theorem allDigits_numeralText (n : ℕ) : AllDigits (numeralText 10 n) := by
  intro c hc
  obtain ⟨d, hd, rfl⟩ := List.mem_map.mp hc
  exact zIsdigit_digitChar d (numeral_lt (by decide) n d hd)

theorem decimalValue_numeralText (n : ℕ) : decimalValue (numeralText 10 n) = n := by
  have hback : ((numeral 10 n).map digitChar).map digitValue = numeral 10 n := by
    rw [List.map_map]
    refine (List.map_congr_left ?_).trans (List.map_id _)
    intro d hd
    exact digitValue_digitChar d (numeral_lt (by decide) n d hd)
  rw [decimalValue, numeralText, hback, value_numeral (by decide)]

def isBlank (c : UInt8) : Bool :=
  c = ' '.toUInt8 || c = '\n'.toUInt8 || c = '\t'.toUInt8 || c = 8

def accumulate (pstr : List UInt8) : BitVec 32 :=
  (pstr.takeWhile zIsdigit).foldl
    (fun ret c => ret * 10 + BitVec.ofNat 32 c.toNat - BitVec.ofNat 32 48) 0

theorem accumulate_step {v : ℕ} {c : UInt8} (h : zIsdigit c) :
    BitVec.ofNat 32 v * 10 + BitVec.ofNat 32 c.toNat - BitVec.ofNat 32 48 =
      BitVec.ofNat 32 (v * 10 + digitValue c) := by
  have hc := le_of_zIsdigit h
  have hsplit : c.toNat = digitValue c + 48 := by
    unfold digitValue
    omega
  rw [hsplit, BitVec.ofNat_add, BitVec.ofNat_add, BitVec.ofNat_mul, ← BitVec.add_assoc,
    BitVec.add_sub_cancel]
  rfl

theorem foldl_digits {ds : List UInt8} (h : AllDigits ds) (v : ℕ) :
    ds.foldl (fun ret c => ret * 10 + BitVec.ofNat 32 c.toNat - BitVec.ofNat 32 48)
        (BitVec.ofNat 32 v) =
      BitVec.ofNat 32 ((ds.map digitValue).foldl (fun v d => v * 10 + d) v) := by
  induction ds generalizing v with
  | nil => rfl
  | cons c ds ih =>
    have hc := h c List.mem_cons_self
    rw [List.foldl_cons, accumulate_step hc, List.map_cons, List.foldl_cons]
    exact ih (fun x hx => h x (List.mem_cons_of_mem _ hx)) _

def NoDigitFirst (tail : List UInt8) : Prop := ∀ c ∈ tail.head?, ¬ zIsdigit c

theorem noDigitFirst_nil : NoDigitFirst [] := by
  intro c hc
  cases hc

theorem takeWhile_digits {ds tail : List UInt8} (h : AllDigits ds) (htail : NoDigitFirst tail) :
    (ds ++ tail).takeWhile zIsdigit = ds := by
  rw [List.takeWhile_append_of_pos h]
  cases tail with
  | nil => simp
  | cons c tail => simp [htail c rfl]

theorem accumulate_eq {ds tail : List UInt8} (h : AllDigits ds) (htail : NoDigitFirst tail) :
    accumulate (ds ++ tail) = BitVec.ofNat 32 (decimalValue ds) := by
  rw [accumulate, takeWhile_digits h htail]
  exact foldl_digits h 0

def fromSign (pstr : List UInt8) : BitVec 32 :=
  (if pstr.head? = some '-'.toUInt8 then -1 else 1) *
    accumulate (if pstr.head? = some '-'.toUInt8 ∨ pstr.head? = some '+'.toUInt8 then pstr.tail
      else pstr)

theorem zAtoi_eq (pstr : List UInt8) : zAtoi pstr = fromSign (pstr.dropWhile isBlank) := rfl

theorem zAtoi_blanks {ws : List UInt8} (h : ∀ c ∈ ws, isBlank c) (pstr : List UInt8) :
    zAtoi (ws ++ pstr) = zAtoi pstr := by
  rw [zAtoi_eq, zAtoi_eq, List.dropWhile_append_of_pos h]

theorem zAtoi_cons {c : UInt8} (h : isBlank c = false) (pstr : List UInt8) :
    zAtoi (c :: pstr) = fromSign (c :: pstr) := by
  rw [zAtoi_eq, List.dropWhile_cons_of_neg (by simp [h])]

theorem zAtoi_minus (pstr : List UInt8) : zAtoi ('-'.toUInt8 :: pstr) = -accumulate pstr := by
  have hblank : isBlank '-'.toUInt8 = false := by decide
  rw [zAtoi_cons hblank, fromSign, List.head?_cons, if_pos rfl, if_pos (Or.inl rfl)]
  exact (BitVec.neg_eq_neg_one_mul _).symm

theorem zAtoi_plus (pstr : List UInt8) : zAtoi ('+'.toUInt8 :: pstr) = accumulate pstr := by
  have hblank : isBlank '+'.toUInt8 = false := by decide
  have hminus : '+'.toUInt8 ≠ '-'.toUInt8 := by decide
  rw [zAtoi_cons hblank, fromSign]
  simp [hminus]

theorem zAtoi_digit {c : UInt8} (h : zIsdigit c) (pstr : List UInt8) :
    zAtoi (c :: pstr) = accumulate (c :: pstr) := by
  have hblank : isBlank c = false := by
    by_contra hb
    simp only [isBlank, Bool.not_eq_false, Bool.or_eq_true, decide_eq_true_eq] at hb
    rcases hb with ((rfl | rfl) | rfl) | rfl <;> exact absurd h (by decide)
  have hminus : c ≠ '-'.toUInt8 := by
    rintro rfl
    exact absurd h (by decide)
  have hplus : c ≠ '+'.toUInt8 := by
    rintro rfl
    exact absurd h (by decide)
  rw [zAtoi_cons hblank, fromSign]
  simp [hminus, hplus]

theorem zAtoi_digits {ds tail : List UInt8} (h : AllDigits ds) (hne : ds ≠ [])
    (htail : NoDigitFirst tail) : zAtoi (ds ++ tail) = BitVec.ofNat 32 (decimalValue ds) := by
  cases ds with
  | nil => exact absurd rfl hne
  | cons c ds =>
    have hc := h c List.mem_cons_self
    rw [List.cons_append, zAtoi_digit hc, ← List.cons_append, accumulate_eq h htail]

end PrintDigits

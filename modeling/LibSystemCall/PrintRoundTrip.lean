import LibSystemCall.PrintText

/-! # Printed integers read back

`z_atoi` has the argument again for whatever width `%d` is printed with, and in the
middle of other text. The width itself is exact only where no sign is printed before
the padding. -/
namespace PrintRoundTrip

open Numerals ByteMemory PrintFormat PrintScan PrintDigits PrintText

def intArg (a : VaArg) : BitVec 32 := a.word.setWidth 32

def stored (o out : Output) : List UInt8 :=
  load out.mem o.str.toNat (out.str.toNat - o.str.toNat)

theorem stored_append {o : Output} {t : List UInt8} (h : Room o t) :
    stored o (append o t) = t := by
  rw [stored, str_append h, Nat.add_sub_cancel_left, append, load_store_same]

def minus (n : BitVec 32) : List UInt8 := if n.toInt < 0 then ['-'.toUInt8] else []

def digitsOf (n : BitVec 32) : List UInt8 := numeralText 10 n.toInt.natAbs

theorem signedText_eq (n : BitVec 32) : signedText n.toInt = minus n ++ digitsOf n := rfl

theorem length_minus (n : BitVec 32) : (minus n).length = if n.toInt < 0 then 1 else 0 := by
  unfold minus
  split <;> rfl

theorem length_digitsOf (n : BitVec 32) :
    0 < (digitsOf n).length ∧ (digitsOf n).length ≤ 10 := by
  have habs : n.toInt.natAbs < 10 ^ 10 := (natAbs_toInt_lt n).trans (by decide)
  rw [digitsOf, length_numeralText]
  exact ⟨length_numeral_pos (by decide) _, length_numeral_le (by decide) (by decide) habs⟩

theorem ofNat_natAbs {n : BitVec 32} (h : ¬ n.toInt < 0) :
    BitVec.ofNat 32 n.toInt.natAbs = n := by
  rw [natAbs_toInt_of_nonneg h, BitVec.ofNat_toNat, BitVec.setWidth_eq]

theorem neg_ofNat_natAbs {n : BitVec 32} (h : n.toInt < 0) :
    -BitVec.ofNat 32 n.toInt.natAbs = n := by
  rw [natAbs_toInt_of_neg h, BitVec.ofNat_toNat, BitVec.setWidth_eq, BitVec.neg_neg]

theorem zAtoi_minus_digits {n : BitVec 32} {ds tail : List UInt8} (h : AllDigits ds)
    (hne : ds ≠ []) (hval : decimalValue ds = n.toInt.natAbs) (htail : NoDigitFirst tail) :
    zAtoi (minus n ++ (ds ++ tail)) = n := by
  unfold minus
  split
  case isTrue hneg =>
    rw [List.singleton_append, zAtoi_minus, accumulate_eq h htail, hval, neg_ofNat_natAbs hneg]
  case isFalse hpos =>
    rw [List.nil_append, zAtoi_digits h hne htail, hval, ofNat_natAbs hpos]

def zeros (k : ℕ) : List UInt8 := List.replicate k '0'.toUInt8

theorem allDigits_zeros (k : ℕ) : AllDigits (zeros k) := by
  intro c hc
  obtain rfl := List.eq_of_mem_replicate hc
  decide

theorem allDigits_padded (k : ℕ) (n : BitVec 32) : AllDigits (zeros k ++ digitsOf n) := by
  intro c hc
  rcases List.mem_append.mp hc with hc | hc
  · exact allDigits_zeros k c hc
  · exact allDigits_numeralText _ c hc

theorem padded_ne_nil (k : ℕ) (n : BitVec 32) : zeros k ++ digitsOf n ≠ [] := by
  intro h
  exact numeralText_ne_nil (by decide) _ (List.append_eq_nil_iff.mp h).2

theorem decimalValue_padded (k : ℕ) (n : BitVec 32) :
    decimalValue (zeros k ++ digitsOf n) = n.toInt.natAbs := by
  have hzero : digitValue '0'.toUInt8 = 0 := by decide
  have hmap : (zeros k ++ digitsOf n).map digitValue =
      List.replicate k 0 ++ (digitsOf n).map digitValue := by
    rw [List.map_append, zeros, List.map_replicate, hzero]
  rw [decimalValue, hmap, value_zeros]
  exact decimalValue_numeralText _

def paddedText (w : ℕ) (n : BitVec 32) : List UInt8 :=
  minus n ++ (zeros (w - (digitsOf n).length) ++ digitsOf n)

theorem length_paddedText (w : ℕ) (n : BitVec 32) :
    (paddedText w n).length = (minus n).length + max w (digitsOf n).length := by
  simp only [paddedText, zeros, List.length_append, List.length_replicate]
  omega

theorem zSprintf_padded (above : List UInt8) (w : Width) (a : VaArg) {o : Output}
    (hroom : o.str.toNat + (1 + max w.value 10) < 2 ^ 64) :
    ∃ out, zSprintf above o (spelled [.padded w .decimal]) [a] = some (0, out) ∧
      stored o out = paddedText w.value (intArg a) := by
  have hfit : Room o (paddedText w.value (intArg a)) := by
    have hlen := length_paddedText w.value (intArg a)
    have hminus := length_minus (intArg a)
    have hdigits := length_digitsOf (intArg a)
    unfold Room
    split at hminus <;> omega
  exact ⟨_, zSprintf_one above rfl rfl hfit, stored_append hfit⟩

/-- As many characters as the width or the number needs, and `z_atoi` undoes them. -/
structure Fills (w : Width) (n : BitVec 32) (t : List UInt8) : Prop where
  length : t.length = max w.value (signedText n.toInt).length
  parsed : zAtoi t = n

theorem zAtoi_paddedText (w : ℕ) (n : BitVec 32) : zAtoi (paddedText w n) = n := by
  have h := zAtoi_minus_digits (allDigits_padded (w - (digitsOf n).length) n) (padded_ne_nil _ n)
    (decimalValue_padded _ n) noDigitFirst_nil
  rwa [List.append_nil] at h

/-- The minus sign is not counted for the width. -/
theorem fills_width_iff (above : List UInt8) (w : Width) (a : VaArg) {o : Output}
    (hroom : o.str.toNat + (1 + max w.value 10) < 2 ^ 64) :
    (∃ r, zSprintf above o (spelled [.padded w .decimal]) [a] = some r ∧
        Fills w (intArg a) (stored o r.2)) ↔
      0 ≤ (intArg a).toInt ∨ w.value ≤ (numeralText 10 (intArg a).toInt.natAbs).length := by
  obtain ⟨out, hrun, hstored⟩ := zSprintf_padded above w a hroom
  have hlen := length_paddedText w.value (intArg a)
  have hminus := length_minus (intArg a)
  have hsigned : (signedText (intArg a).toInt).length =
      (minus (intArg a)).length + (digitsOf (intArg a)).length := by
    rw [signedText_eq, List.length_append]
  rw [← digitsOf]
  constructor
  · rintro ⟨r, hr, hf⟩
    obtain rfl := Option.some.inj (hrun.symm.trans hr)
    have hfill := hf.length
    rw [hstored] at hfill
    split at hminus <;> omega
  · intro hcond
    refine ⟨(0, out), hrun, ?_, ?_⟩
    · rw [hstored]
      split at hminus <;> omega
    · rw [hstored]
      exact zAtoi_paddedText w.value (intArg a)

def five : Width where
  digit := ['5'.toUInt8]
  digits := by
    intro c hc
    obtain rfl := List.mem_singleton.mp hc
    decide
  short := by decide
  fits := by decide

/-- `"%05d"` with 42. -/
theorem forty_two_fills :
    ∃ r, zSprintf [] ⟨fun _ => 1, 0⟩ (spelled [.padded five .decimal]) [⟨42, []⟩] = some r ∧
      Fills five 42 (stored ⟨fun _ => 1, 0⟩ r.2) :=
  (fills_width_iff [] five ⟨42, []⟩ (o := ⟨fun _ => 1, 0⟩) (by decide)).mpr
    (Or.inl (by decide))

def two : Width where
  digit := ['2'.toUInt8]
  digits := by
    intro c hc
    obtain rfl := List.mem_singleton.mp hc
    decide
  short := by decide
  fits := by decide

theorem paddedText_minus_seven :
    paddedText 2 (-7) = ['-'.toUInt8, '0'.toUInt8, '7'.toUInt8] := by
  have habs : (-7 : BitVec 32).toInt.natAbs = 7 := by decide
  have hdigits : digitsOf (-7) = ['7'.toUInt8] := by
    rw [digitsOf, habs, numeralText_of_lt (by decide)]
    decide
  rw [paddedText, hdigits]
  decide

/-- `"%02d"` with -7: three characters, although two are enough. -/
theorem minus_seven_overfills :
    ∃ r, zSprintf [] ⟨fun _ => 1, 0⟩ (spelled [.padded two .decimal]) [⟨-7, []⟩] = some r ∧
      stored ⟨fun _ => 1, 0⟩ r.2 = ['-'.toUInt8, '0'.toUInt8, '7'.toUInt8] ∧
      ¬ Fills two (-7) (stored ⟨fun _ => 1, 0⟩ r.2) := by
  obtain ⟨out, hrun, hstored⟩ :=
    zSprintf_padded [] two ⟨-7, []⟩ (o := ⟨fun _ => 1, 0⟩) (by decide)
  have htext : stored ⟨fun _ => 1, 0⟩ out = ['-'.toUInt8, '0'.toUInt8, '7'.toUInt8] :=
    hstored.trans paddedText_minus_seven
  refine ⟨(0, out), hrun, htext, ?_⟩
  intro hf
  have habs : (-7 : BitVec 32).toInt.natAbs = 7 := by decide
  have hlen : (signedText (-7 : BitVec 32).toInt).length = 2 := by
    rw [signedText_eq, digitsOf, habs, numeralText_of_lt (by decide)]
    decide
  have hfill := hf.length
  rw [htext, hlen] at hfill
  exact absurd hfill (by decide)

theorem cStringAt_stored {m : Memory} {a : ℕ} {t : List UInt8} (hnul : 0 ∉ t)
    (hzero : m (a + t.length) = 0) : CStringAt (store m a t) a t := by
  constructor
  · rw [load_add, load_store_same, load_cons, load_zero, store_outside (by omega), hzero]
  · exact hnul

theorem nul_not_mem_signedText (n : BitVec 32) : 0 ∉ signedText n.toInt := by
  intro h
  rw [signedText_eq] at h
  rcases List.mem_append.mp h with h | h
  · unfold minus at h
    split at h
    · exact absurd h (by decide)
    · cases h
  · exact absurd (allDigits_numeralText _ 0 h) (by decide)

theorem length_signedText (n : BitVec 32) : (signedText n.toInt).length ≤ 11 := by
  have hminus := length_minus n
  have hdigits := length_digitsOf n
  rw [signedText_eq, List.length_append]
  split at hminus <;> omega

theorem zSprintf_decimal (above : List UInt8) (a : VaArg) {o : Output}
    (hroom : o.str.toNat + 12 ≤ 2 ^ 64) :
    zSprintf above o (spelled [.plain .decimal]) [a] =
      some (0, append o (signedText (intArg a).toInt)) := by
  have hfield : bodyField 0 (minus (intArg a)) (digitsOf (intArg a)) =
      signedText (intArg a).toInt := by
    simp [bodyField, signedText_eq]
  have htext : (Item.plain .decimal).text bodyField [a] =
      some (signedText (intArg a).toInt, []) := by
    rw [← hfield]
    rfl
  have hfit : Room o (signedText (intArg a).toInt) := by
    have hlen := length_signedText (intArg a)
    unfold Room
    omega
  exact zSprintf_one above htext rfl hfit

theorem zAtoi_signedText {tail : List UInt8} (n : BitVec 32) (htail : NoDigitFirst tail) :
    zAtoi (signedText n.toInt ++ tail) = n := by
  rw [signedText_eq, List.append_assoc]
  exact zAtoi_minus_digits (allDigits_numeralText _) (numeralText_ne_nil (by decide) _)
    (decimalValue_numeralText _) htail

theorem zAtoi_plus_signedText {tail : List UInt8} {n : BitVec 32} (hn : 0 ≤ n.toInt)
    (htail : NoDigitFirst tail) : zAtoi ('+'.toUInt8 :: (signedText n.toInt ++ tail)) = n := by
  have hpos : ¬ n.toInt < 0 := by omega
  rw [zAtoi_plus, signedText_eq, minus, if_neg hpos, List.nil_append, digitsOf,
    accumulate_eq (allDigits_numeralText _) htail, decimalValue_numeralText, ofNat_natAbs hpos]

/-- A C string is left in a cleared buffer, and `z_atoi` finds its number in any context that
does not go on with a digit. -/
theorem printed_decimal_read_back (above : List UInt8) (a : VaArg) {o : Output}
    (hroom : o.str.toNat + 12 ≤ 2 ^ 64) (hclear : ∀ i < 12, o.mem (o.str.toNat + i) = 0)
    {ws tail : List UInt8} (hws : ∀ c ∈ ws, isBlank c) (htail : NoDigitFirst tail) :
    ∃ r t, zSprintf above o (spelled [.plain .decimal]) [a] = some r ∧
      CStringAt r.2.mem o.str.toNat t ∧ zAtoi (ws ++ (t ++ tail)) = intArg a ∧
      (0 ≤ (intArg a).toInt → zAtoi (ws ++ '+'.toUInt8 :: (t ++ tail)) = intArg a) := by
  have hlen := length_signedText (intArg a)
  refine ⟨_, signedText (intArg a).toInt, zSprintf_decimal above a hroom, ?_, ?_, ?_⟩
  · exact cStringAt_stored (nul_not_mem_signedText _) (hclear _ (by omega))
  · rw [zAtoi_blanks hws]
    exact zAtoi_signedText _ htail
  · intro hn
    rw [zAtoi_blanks hws]
    exact zAtoi_plus_signedText hn htail

/-- `" \t5x"` and `" \t+5x"`. -/
theorem five_read_back :
    ∃ r t, zSprintf [] ⟨fun _ => 0, 0⟩ (spelled [.plain .decimal]) [⟨5, []⟩] = some r ∧
      CStringAt r.2.mem 0 t ∧
      zAtoi ([' '.toUInt8, '\t'.toUInt8] ++ (t ++ ['x'.toUInt8])) = 5 ∧
      (0 ≤ (5 : BitVec 32).toInt →
        zAtoi ([' '.toUInt8, '\t'.toUInt8] ++ '+'.toUInt8 :: (t ++ ['x'.toUInt8])) = 5) := by
  have hws : ∀ c ∈ [' '.toUInt8, '\t'.toUInt8], isBlank c := by
    intro c hc
    rcases List.mem_pair.mp hc with rfl | rfl <;> decide
  have htail : NoDigitFirst ['x'.toUInt8] := by
    intro c hc
    obtain rfl := Option.some.inj hc
    decide
  exact printed_decimal_read_back [] ⟨5, []⟩ (o := ⟨fun _ => 0, 0⟩) (by decide)
    (fun _ _ => rfl) hws htail

end PrintRoundTrip

import LibSystemCall.PrintDigits

/-! # The text of a z_sprintf format

A format is a list of items. `zSprintf_stores` says which bytes `z_sprintf` stores for
them: the texts of the items one after the other, with no NUL behind them. -/
namespace PrintText

open Numerals ByteMemory ByteScan PrintFormat PrintScan PrintDigits

/-- `z_sprintf` on the bytes from `fmt` on: its result, and the memory with `str` moved on. -/
def zSprintf (above : List UInt8) (str : Output) (fmt : List UInt8) (ap : List VaArg) :
    Option (BitVec 32 × Output) :=
  let count := 0
  (consume (sprintfTurn above) fmt ⟨.literal, ap, str⟩).map fun s => (count, s.out)

/-- What may stand behind `%0<w>`. -/
inductive Kind where
  | decimal
  | hexadecimal
  | string

def Kind.letter : Kind → UInt8
  | decimal => 'd'.toUInt8
  | hexadecimal => 'x'.toUInt8
  | string => 's'.toUInt8

def Kind.conversion : Kind → Conversion
  | decimal => .decimal
  | hexadecimal => .hexadecimal
  | string => .string

structure Width where
  digit : List UInt8
  digits : AllDigits digit
  short : digit.length ≤ 15
  fits : decimalValue digit < 2 ^ 31

def Width.value (w : Width) : ℕ := decimalValue w.digit

inductive Item where
  | literal (ch : UInt8) (h : ch ≠ 0 ∧ ch ≠ '%'.toUInt8)
  | percent
  | character
  | plain (k : Kind)
  | padded (w : Width) (k : Kind)

def Item.spelling : Item → List UInt8
  | literal ch _ => [ch]
  | percent => ['%'.toUInt8, '%'.toUInt8]
  | character => ['%'.toUInt8, 'c'.toUInt8]
  | plain k => ['%'.toUInt8, k.letter]
  | padded w k => '%'.toUInt8 :: '0'.toUInt8 :: (w.digit ++ [k.letter])

def spelled (items : List Item) : List UInt8 := items.flatMap Item.spelling ++ [0]

theorem spelled_cons (i : Item) (items : List Item) :
    spelled (i :: items) = i.spelling ++ spelled items := by
  simp only [spelled, List.flatMap_cons, List.append_assoc]

def Item.conversion : Item → Option Conversion
  | literal _ _ => none
  | percent => none
  | character => some .character
  | plain k => some k.conversion
  | padded _ k => some k.conversion

def conversionsOf (items : List Item) : List Conversion :=
  items.flatMap fun i => i.conversion.toList

/-- `z_strlen` counts in an int. -/
def ShortStrings : List Conversion → List VaArg → Prop
  | c :: cs, a :: ap => (c = .string → ∀ s ∈ cString a.target, s.length < 2 ^ 31) ∧
      ShortStrings cs ap
  | _, _ => True

def Kind.sign (a : VaArg) : Kind → List UInt8
  | decimal => if (a.word.setWidth 32).toInt < 0 then ['-'.toUInt8] else []
  | _ => []

def Kind.body (a : VaArg) : Kind → Option (List UInt8)
  | decimal => some (numeralText 10 (a.word.setWidth 32).toInt.natAbs)
  | hexadecimal => some (numeralText 16 (a.word.setWidth 32).toNat)
  | string => cString a.target

/-- How a sign and a body are brought to a width. -/
abbrev Padding := ℕ → List UInt8 → List UInt8 → List UInt8

/-- The sign counts for the width. -/
def fullField : Padding := fun w sign body =>
  sign ++ (List.replicate (w - (sign.length + body.length)) '0'.toUInt8 ++ body)

/-- `z_sprintf` has stored the sign before it looks at the width. -/
def bodyField : Padding := fun w sign body =>
  sign ++ (List.replicate (w - body.length) '0'.toUInt8 ++ body)

def Item.text (pad : Padding) : Item → List VaArg → Option (List UInt8 × List VaArg)
  | literal ch _, ap => some ([ch], ap)
  | percent, ap => some (['%'.toUInt8], ap)
  | character, a :: ap => some ([UInt8.ofBitVec (a.word.setWidth 8)], ap)
  | plain k, a :: ap => (k.body a).map fun s => (pad 0 (k.sign a) s, ap)
  | padded w k, a :: ap => (k.body a).map fun s => (pad w.value (k.sign a) s, ap)
  | _, [] => none

theorem character_text {pad : Padding} {ap : List VaArg} {r : List UInt8 × List VaArg}
    (h : Item.character.text pad ap = some r) :
    ∃ a, ap = a :: r.2 ∧ r.1 = [UInt8.ofBitVec (a.word.setWidth 8)] := by
  cases ap with
  | nil => cases h
  | cons a ap =>
    obtain rfl := Option.some.inj h
    exact ⟨a, rfl, rfl⟩

theorem plain_text {pad : Padding} {k : Kind} {ap : List VaArg} {r : List UInt8 × List VaArg}
    (h : (Item.plain k).text pad ap = some r) :
    ∃ a s, ap = a :: r.2 ∧ k.body a = some s ∧ r.1 = pad 0 (k.sign a) s := by
  cases ap with
  | nil => cases h
  | cons a ap =>
    obtain ⟨s, hb, rfl⟩ := Option.map_eq_some_iff.mp h
    exact ⟨a, s, rfl, hb, rfl⟩

theorem padded_text {pad : Padding} {w : Width} {k : Kind} {ap : List VaArg}
    {r : List UInt8 × List VaArg} (h : (Item.padded w k).text pad ap = some r) :
    ∃ a s, ap = a :: r.2 ∧ k.body a = some s ∧ r.1 = pad w.value (k.sign a) s := by
  cases ap with
  | nil => cases h
  | cons a ap =>
    obtain ⟨s, hb, rfl⟩ := Option.map_eq_some_iff.mp h
    exact ⟨a, s, rfl, hb, rfl⟩

/-- The texts of the items, each with the arguments that the items before it leave. -/
def texts (text : Item → List VaArg → Option (List UInt8 × List VaArg)) :
    List Item → List VaArg → Option (List (List UInt8))
  | [], _ => some []
  | i :: items, ap => (text i ap).bind fun r => (texts text items r.2).map (r.1 :: ·)

def formattedText (items : List Item) (ap : List VaArg) : Option (List UInt8) :=
  (texts (Item.text fullField) items ap).map List.flatten

theorem body_isSome (k : Kind) (a : VaArg) :
    (k.body a).isSome ↔ (k.conversion = .string → 0 ∈ a.target) := by
  cases k <;> simp [Kind.body, Kind.conversion, cString]

theorem field_isSome (k : Kind) (field : List UInt8 → List UInt8) (a : VaArg) (ap : List VaArg)
    {cs : List Conversion} {E : List VaArg → Prop} (ih : ∀ ap, E ap ↔ Matching cs ap) :
    (∃ r, (k.body a).map (fun s => (field s, ap)) = some r ∧ E r.2) ↔
      Matching (k.conversion :: cs) (a :: ap) := by
  have hbody := body_isSome k a
  rw [Matching, ← hbody, ← ih ap]
  rcases k.body a with _ | s
  · simp
  · simp

theorem text_isSome (pad : Padding) (i : Item) {ap : List VaArg} {cs : List Conversion}
    {E : List VaArg → Prop} (ih : ∀ ap, E ap ↔ Matching cs ap) :
    (∃ r, i.text pad ap = some r ∧ E r.2) ↔ Matching (i.conversion.toList ++ cs) ap := by
  cases i with
  | literal ch hch => simp [Item.text, Item.conversion, ih]
  | percent => simp [Item.text, Item.conversion, ih]
  | character =>
    cases ap with
    | nil => simp [Item.text, Item.conversion, Matching]
    | cons a ap => simp [Item.text, Item.conversion, Matching, ih]
  | plain k =>
    cases ap with
    | nil => simp [Item.text, Item.conversion, Matching]
    | cons a ap => exact field_isSome k _ a ap ih
  | padded w k =>
    cases ap with
    | nil => simp [Item.text, Item.conversion, Matching]
    | cons a ap => exact field_isSome k _ a ap ih

theorem texts_isSome (pad : Padding) (items : List Item) (ap : List VaArg) :
    (texts (Item.text pad) items ap).isSome ↔ Matching (conversionsOf items) ap := by
  induction items generalizing ap with
  | nil => simp [texts, conversionsOf, Matching]
  | cons i items ih =>
    have hsplit : conversionsOf (i :: items) = i.conversion.toList ++ conversionsOf items := rfl
    rw [hsplit, ← text_isSome pad i ih, texts]
    rcases i.text pad ap with _ | r
    · simp
    · simp

def append (o : Output) (t : List UInt8) : Output :=
  ⟨store o.mem o.str.toNat t, o.str + BitVec.ofNat 64 t.length⟩

def Room (o : Output) (t : List UInt8) : Prop := o.str.toNat + t.length < 2 ^ 64

@[simp] theorem append_nil (o : Output) : append o [] = o := by
  simp [append]

theorem str_append {o : Output} {t : List UInt8} (h : Room o t) :
    (append o t).str.toNat = o.str.toNat + t.length := by
  unfold Room at h
  simp only [append, BitVec.toNat_add, BitVec.toNat_ofNat]
  omega

theorem append_append {o : Output} {t : List UInt8} (h : Room o t) (u : List UInt8) :
    append (append o t) u = append o (t ++ u) := by
  have hstr := str_append h
  have hmem : (append (append o t) u).mem = (append o (t ++ u)).mem := by
    rw [append, hstr]
    exact store_append _ _ _ _
  have hend : (append (append o t) u).str = (append o (t ++ u)).str := by
    simp only [append, List.length_append, BitVec.ofNat_add, BitVec.add_assoc]
  rw [append, Output.mk.injEq]
  exact ⟨hmem, hend⟩

theorem Room.left {o : Output} {t u : List UInt8} (h : Room o (t ++ u)) : Room o t := by
  unfold Room at *
  rw [List.length_append] at h
  omega

theorem Room.right {o : Output} {t u : List UInt8} (h : Room o (t ++ u)) :
    Room (append o t) u := by
  have hstr := str_append h.left
  unfold Room at *
  rw [List.length_append] at h
  omega

theorem toInt_ofNat_small {n : ℕ} (h : n < 2 ^ 31) : (BitVec.ofNat 32 n).toInt = n := by
  rw [BitVec.toInt_ofNat']
  exact Int.bmod_eq_of_le (by omega) (by omega)

theorem put_eq (o : Output) {bs : List UInt8} (h : bs.length < 2 ^ 31) :
    o.put bs (BitVec.ofNat 32 bs.length) = append o bs := by
  have hint := toInt_ofNat_small h
  have hnat : (BitVec.ofNat 32 bs.length).toNat = bs.length := by
    rw [BitVec.toNat_ofNat]
    omega
  have hext : (BitVec.ofNat 32 bs.length).signExtend 64 = BitVec.ofNat 64 bs.length := by
    apply BitVec.eq_of_toInt_eq
    rw [BitVec.toInt_signExtend_of_le (by decide), hint, BitVec.toInt_ofNat']
    exact (Int.bmod_eq_of_le (by omega) (by omega)).symm
  rw [Output.put, hint, hnat, hext, if_neg (by omega), List.take_length, append]

theorem putText_eq (o : Output) {s : List UInt8} (h : s.length < 2 ^ 31) :
    o.putText s = append o s := put_eq o h

theorem put_one (o : Output) (ch : UInt8) : o.put [ch] 1 = append o [ch] :=
  put_eq o (by simp)

theorem putPadded_eq {o : Output} {w : ℕ} {s : List UInt8} (hw : w < 2 ^ 31)
    (hs : s.length < 2 ^ 31) (h : Room o (List.replicate (w - s.length) '0'.toUInt8 ++ s)) :
    o.putPadded (BitVec.ofNat 32 w) s =
      append o (List.replicate (w - s.length) '0'.toUInt8 ++ s) := by
  have hnum := toInt_ofNat_small hw
  have hlen := toInt_ofNat_small hs
  by_cases hle : w ≤ s.length
  · have hzeros : w - s.length = 0 := by omega
    rw [Output.putPadded, zStrlen, hnum, hlen, if_pos (by omega), hzeros, putText_eq o hs]
    rfl
  · have hsub : BitVec.ofNat 32 w - BitVec.ofNat 32 s.length = BitVec.ofNat 32 (w - s.length) :=
      BitVec.ofNat_sub_ofNat_of_le _ _ (by omega) (by omega)
    have hcount : (BitVec.ofNat 32 (w - s.length)).toNat = w - s.length := by
      rw [BitVec.toNat_ofNat]
      omega
    have hshort : (List.replicate (w - s.length) '0'.toUInt8).length < 2 ^ 31 := by
      rw [List.length_replicate]
      omega
    have hput := put_eq o hshort
    rw [List.length_replicate] at hput
    rw [Output.putPadded, zStrlen, hnum, hlen, if_neg (by omega), hsub, hcount, hput,
      putText_eq _ hs, append_append h.left]

theorem zItoa_natAbs (n : BitVec 32) :
    zItoa (if n.toInt < 0 then -n else n) = numeralText 10 n.toInt.natAbs := by
  rw [zItoa_eq]
  split
  case isTrue hneg => rw [natAbs_toInt_of_neg hneg]
  case isFalse hpos => rw [natAbs_toInt_of_nonneg hpos]

theorem putArg_letter (put : Output → List UInt8 → Output) (o : Output) (k : Kind) (a : VaArg)
    (ap : List VaArg) :
    putArg put o k.letter (a :: ap) =
      (k.body a).map fun s => (put (append o (k.sign a)) s, ap) := by
  have hxd : 'x'.toUInt8 ≠ 'd'.toUInt8 := by decide
  have hsd : 's'.toUInt8 ≠ 'd'.toUInt8 := by decide
  have hsx : 's'.toUInt8 ≠ 'x'.toUInt8 := by decide
  cases k with
  | decimal =>
    have htext := zItoa_natAbs (a.word.setWidth 32)
    simp only [putArg, Kind.letter, if_pos, Kind.sign, Kind.body, Option.map_some, ← htext]
    split
    · rw [put_one]
    · rw [append_nil]
  | hexadecimal =>
    simp only [putArg, Kind.letter, if_neg hxd, if_pos, Kind.sign, Kind.body, Option.map_some,
      append_nil, zXtoa_eq]
  | string =>
    simp only [putArg, Kind.letter, if_neg hsd, if_neg hsx, if_pos, Kind.sign, Kind.body,
      append_nil]

theorem body_short {k : Kind} {a : VaArg} {s : List UInt8} (hb : k.body a = some s)
    (h : k.conversion = .string → ∀ s ∈ cString a.target, s.length < 2 ^ 31) :
    s.length < 2 ^ 31 := by
  cases k with
  | decimal =>
    obtain rfl := Option.some.inj hb
    have := length_numeralText_word (show 1 < 10 by decide) (natAbs_toInt_lt (a.word.setWidth 32))
    omega
  | hexadecimal =>
    obtain rfl := Option.some.inj hb
    have := length_numeralText_word (show 1 < 16 by decide) (a.word.setWidth 32).isLt
    omega
  | string => exact h rfl s hb

theorem consume_digits (above : List UInt8) {ds digit : List UInt8} (hds : AllDigits ds)
    (hlen : (digit ++ ds).length ≤ 15) (rest : List UInt8) (ap : List VaArg) (o : Output) :
    consume (sprintfTurn above) (ds ++ rest) ⟨.width digit, ap, o⟩ =
      consume (sprintfTurn above) rest ⟨.width (digit ++ ds), ap, o⟩ := by
  induction ds generalizing digit with
  | nil => rw [List.nil_append, List.append_nil]
  | cons c ds ih =>
    have hc : zIsdigit c := hds c List.mem_cons_self
    have hds' : AllDigits ds := fun x hx => hds x (List.mem_cons_of_mem _ hx)
    rw [List.append_cons] at hlen
    have hroom : digit.length < digitSize := by
      rw [List.length_append, List.length_append, List.length_singleton] at hlen
      unfold digitSize
      omega
    rw [List.cons_append, consume, sprintfTurn]
    simp only [hc, if_true, if_pos hroom]
    rw [ih hds' hlen, ← List.append_cons]

theorem width_value (above : List UInt8) (w : Width) :
    zAtoi (digitString above w.digit) = BitVec.ofNat 32 w.value := by
  have hshort := w.short
  rw [digitString, if_pos (by unfold digitSize; omega), Width.value]
  by_cases hnil : w.digit = []
  · rw [hnil]
    decide
  · rw [← zAtoi_digits w.digits hnil noDigitFirst_nil, List.append_nil]

theorem letter_not_digit (k : Kind) : zIsdigit k.letter = false := by
  cases k <;> decide

theorem letter_plain (k : Kind) :
    k.letter ≠ '0'.toUInt8 ∧ k.letter ≠ 'c'.toUInt8 ∧ k.letter ≠ '%'.toUInt8 := by
  cases k <;> decide

theorem consume_percent (above : List UInt8) {ch : UInt8} (hch : ch ≠ '0'.toUInt8)
    {o o' : Output} {ap ap' : List VaArg} (h : putPlain o ch ap = some (o', ap'))
    (rest : List UInt8) :
    consume (sprintfTurn above) ('%'.toUInt8 :: ch :: rest) ⟨.literal, ap, o⟩ =
      consume (sprintfTurn above) rest ⟨.literal, ap', o'⟩ := by
  have hnul : '%'.toUInt8 ≠ 0 := by decide
  simp only [consume, sprintfTurn, if_neg hnul, if_pos, if_neg hch, h, nextDirective]

theorem consume_plain (above : List UInt8) {k : Kind} {a : VaArg} {s : List UInt8}
    (hb : k.body a = some s) (hs : s.length < 2 ^ 31) {o : Output}
    (hroom : Room o (k.sign a ++ s)) (rest : List UInt8) (ap : List VaArg) :
    consume (sprintfTurn above) ('%'.toUInt8 :: k.letter :: rest) ⟨.literal, a :: ap, o⟩ =
      consume (sprintfTurn above) rest ⟨.literal, ap, append o (k.sign a ++ s)⟩ := by
  obtain ⟨hzero, hc, hpercent⟩ := letter_plain k
  have hput : putPlain o k.letter (a :: ap) = some (append o (k.sign a ++ s), ap) := by
    rw [putPlain, if_neg hc, if_neg hpercent, putArg_letter, hb, Option.map_some,
      putText_eq _ hs, append_append hroom.left]
  exact consume_percent above hzero hput rest

theorem consume_padded (above : List UInt8) (w : Width) {k : Kind} {a : VaArg} {s : List UInt8}
    (hb : k.body a = some s) (hs : s.length < 2 ^ 31) {o : Output}
    (hroom : Room o (bodyField w.value (k.sign a) s)) (rest : List UInt8) (ap : List VaArg) :
    consume (sprintfTurn above) ((Item.padded w k).spelling ++ rest) ⟨.literal, a :: ap, o⟩ =
      consume (sprintfTurn above) rest
        ⟨.literal, ap, append o (bodyField w.value (k.sign a) s)⟩ := by
  have hnul : '%'.toUInt8 ≠ 0 := by decide
  have hput := putPadded_eq (show w.value < 2 ^ 31 from w.fits) hs hroom.right
  have hstart : consume (sprintfTurn above) ((Item.padded w k).spelling ++ rest)
        ⟨.literal, a :: ap, o⟩ =
      consume (sprintfTurn above) (w.digit ++ k.letter :: rest) ⟨.width [], a :: ap, o⟩ := by
    simp only [Item.spelling, List.cons_append, List.append_assoc, List.nil_append, consume,
      sprintfTurn, if_neg hnul, if_pos]
  rw [hstart, consume_digits above w.digits (by simpa using w.short), List.nil_append, consume,
    sprintfTurn]
  simp only [letter_not_digit, Bool.false_eq_true, if_false, width_value, putArg_letter, hb,
    Option.map_some, hput, append_append hroom.left, nextDirective]
  rfl

theorem consume_item (above : List UInt8) (i : Item) {ap : List VaArg}
    {r : List UInt8 × List VaArg} (h : i.text bodyField ap = some r) {cs : List Conversion}
    (hs : ShortStrings (i.conversion.toList ++ cs) ap) {o : Output} (hroom : Room o r.1)
    (rest : List UInt8) :
    consume (sprintfTurn above) (i.spelling ++ rest) ⟨.literal, ap, o⟩ =
        consume (sprintfTurn above) rest ⟨.literal, r.2, append o r.1⟩ ∧
      ShortStrings cs r.2 := by
  cases i with
  | literal ch hch =>
    obtain rfl := Option.some.inj h
    refine ⟨?_, hs⟩
    simp only [Item.spelling, List.singleton_append, consume, sprintfTurn, if_neg hch.1,
      if_neg hch.2, put_one]
  | percent =>
    obtain rfl := Option.some.inj h
    refine ⟨?_, hs⟩
    have hc : '%'.toUInt8 ≠ 'c'.toUInt8 := by decide
    have hput : putPlain o '%'.toUInt8 ap = some (append o ['%'.toUInt8], ap) := by
      unfold putPlain
      rw [if_neg hc, if_pos rfl, put_one]
    exact consume_percent above (by decide) hput rest
  | character =>
    obtain ⟨a, rfl, ht⟩ := character_text h
    refine ⟨?_, hs.2⟩
    have hput : putPlain o 'c'.toUInt8 (a :: r.2) =
        some (append o [UInt8.ofBitVec (a.word.setWidth 8)], r.2) := by
      rw [putPlain, if_pos rfl]
      simp only [put_one]
    rw [ht]
    exact consume_percent above (by decide) hput rest
  | plain k =>
    obtain ⟨a, s, rfl, hb, ht⟩ := plain_text h
    have hfield : bodyField 0 (k.sign a) s = k.sign a ++ s := by simp [bodyField]
    rw [ht, hfield] at hroom ⊢
    exact ⟨consume_plain above hb (body_short hb hs.1) hroom rest r.2, hs.2⟩
  | padded w k =>
    obtain ⟨a, s, rfl, hb, ht⟩ := padded_text h
    rw [ht] at hroom ⊢
    exact ⟨consume_padded above w hb (body_short hb hs.1) hroom rest r.2, hs.2⟩

theorem consume_items (above : List UInt8) (items : List Item) {ap : List VaArg}
    {ts : List (List UInt8)} (h : texts (Item.text bodyField) items ap = some ts)
    (hs : ShortStrings (conversionsOf items) ap) {o : Output} (hroom : Room o ts.flatten) :
    (consume (sprintfTurn above) (spelled items) ⟨.literal, ap, o⟩).map SprintfState.out =
      some (append o ts.flatten) := by
  induction items generalizing ap ts o with
  | nil =>
    obtain rfl := Option.some.inj h
    rw [List.flatten_nil, append_nil]
    rfl
  | cons i items ih =>
    obtain ⟨r, hr, hrest⟩ := Option.bind_eq_some_iff.mp h
    obtain ⟨us, hus, rfl⟩ := Option.map_eq_some_iff.mp hrest
    rw [List.flatten_cons] at hroom ⊢
    obtain ⟨hstep, hs⟩ := consume_item above i hr hs hroom.left (spelled items)
    rw [spelled_cons, hstep, ih hus hs hroom.right, append_append hroom.left]

/-- `z_sprintf` stores the texts of its items and nothing else, and its result is 0. -/
theorem zSprintf_stores (above : List UInt8) {items : List Item} {ap : List VaArg}
    {ts : List (List UInt8)} (h : texts (Item.text bodyField) items ap = some ts)
    (hs : ShortStrings (conversionsOf items) ap) {o : Output} (hroom : Room o ts.flatten) :
    zSprintf above o (spelled items) ap = some (0, append o ts.flatten) := by
  have hrun := consume_items above items h hs hroom
  obtain ⟨s, hs, hout⟩ := Option.map_eq_some_iff.mp hrun
  rw [zSprintf, hs, ← hout]
  rfl

theorem zSprintf_one (above : List UInt8) {i : Item} {a : VaArg} {t : List UInt8}
    (h : i.text bodyField [a] = some (t, [])) (hi : i.conversion = some .decimal) {o : Output}
    (hroom : Room o t) : zSprintf above o (spelled [i]) [a] = some (0, append o t) := by
  have htexts : texts (Item.text bodyField) [i] [a] = some [t] := by
    rw [texts, h]
    rfl
  have hs : ShortStrings (conversionsOf [i]) [a] := by
    simp [conversionsOf, hi, ShortStrings]
  have hrun := zSprintf_stores above htexts hs (by simpa using hroom)
  simpa only [List.flatten_singleton] using hrun

end PrintText

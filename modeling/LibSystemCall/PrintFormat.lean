import LibSystemCall.Numerals
import LibSystemCall.PrintBuffer

/-! # kdoprnt

A format is the list of bytes in memory from `fmt` on; reading past its end has no
result. `formatted` is the text a format stands for, and `kdoprnt_eq` connects them. -/
namespace PrintFormat

open Numerals PrintBuffer

/-- An argument slot: its 64 bits, and the bytes at the address when it is a pointer. -/
structure VaArg where
  word : BitVec 64
  target : List UInt8

/-- `va_arg(ap, z_int32)` or `va_arg(ap, z_int64)`, as the `z_int64` it is converted to. -/
def signedArg (lflag : Bool) (a : VaArg) : BitVec 64 :=
  if lflag then a.word else (a.word.setWidth 32).signExtend 64

def unsignedArg (lflag : Bool) (a : VaArg) : BitVec 64 :=
  if lflag then a.word else (a.word.setWidth 32).setWidth 64

def hexTable : List UInt8 :=
  ['0', '1', '2', '3', '4', '5', '6', '7', '8', '9', 'a', 'b', 'c', 'd', 'e', 'f'].map
    Char.toUInt8

def digitChar (d : ℕ) : UInt8 := hexTable.getD d 0

/-- The first loop of `kprintn`: `buf` holds the digits, the last one stored in front.
A 64-bit value takes at most 64 rounds. -/
def kprintnStore (base : ℕ) : ℕ → ℕ → List UInt8 → List UInt8
  | 0, _, buf => buf
  | rounds + 1, ul, buf =>
    let buf := digitChar (ul % base) :: buf
    if ul / base ≠ 0 then kprintnStore base rounds (ul / base) buf else buf

def kprintn (s : PrintState) (fd : ℤ) (ul : BitVec 64) (base : ℕ) : PrintState :=
  putAll s fd (kprintnStore base 64 ul.toNat [])

/-- `while ((ch = *p++)) putcharfd(ch, fd)` -/
def putString (s : PrintState) (fd : ℤ) : List UInt8 → Option PrintState
  | [] => none
  | ch :: p => if ch = 0 then some s else putString (putcharfd s fd ch) fd p

/-- The loop of `%X`: `l` runs from `4 * (k - 1)` down to 0. -/
def putNibbles (s : PrintState) (fd : ℤ) (ul : BitVec 64) : ℕ → PrintState
  | 0 => s
  | k + 1 => putNibbles (putcharfd s fd (digitChar ((ul >>> (4 * k)) &&& 0xf).toNat)) fd ul k

/-- One directive after its `l` flags: the `switch` of `kdoprnt` on `ch`. -/
def convert (s : PrintState) (fd : ℤ) (lflag : Bool) (ch : UInt8) (ap : List VaArg) :
    Option (PrintState × List VaArg) :=
  if ch = 'c'.toUInt8 then
    match ap with
    | [] => none
    | a :: ap => some (putcharfd s fd (UInt8.ofBitVec (a.word.setWidth 8) &&& 0x7f), ap)
  else if ch = 's'.toUInt8 then
    match ap with
    | [] => none
    | a :: ap => (putString s fd a.target).map fun s => (s, ap)
  else if ch = 'd'.toUInt8 then
    match ap with
    | [] => none
    | a :: ap =>
      let ul := signedArg lflag a
      if ul.toInt < 0 then some (kprintn (putcharfd s fd '-'.toUInt8) fd (-ul) 10, ap)
      else some (kprintn s fd ul 10, ap)
  else if ch = 'o'.toUInt8 then
    match ap with
    | [] => none
    | a :: ap => some (kprintn s fd (unsignedArg lflag a) 8, ap)
  else if ch = 'u'.toUInt8 then
    match ap with
    | [] => none
    | a :: ap => some (kprintn s fd (unsignedArg lflag a) 10, ap)
  else if ch = 'p'.toUInt8 then
    -- falls through to the case of 'x' with lflag incremented
    let s := putcharfd (putcharfd s fd '0'.toUInt8) fd 'x'.toUInt8
    match ap with
    | [] => none
    | a :: ap => some (kprintn s fd (unsignedArg true a) 16, ap)
  else if ch = 'x'.toUInt8 then
    match ap with
    | [] => none
    | a :: ap => some (kprintn s fd (unsignedArg lflag a) 16, ap)
  else if ch = 'X'.toUInt8 then
    match ap with
    | [] => none
    | a :: ap => some (putNibbles s fd (unsignedArg lflag a) (if lflag then 16 else 8), ap)
  else
    let s := putcharfd s fd '%'.toUInt8
    let s := if lflag then putcharfd s fd 'l'.toUInt8 else s
    some (putcharfd s fd ch, ap)

/-- Where the scan of the format stands: between directives, or after a `%` and its flags. -/
inductive Place where
  | literal
  | directive (lflag : Bool)

def scan (fd : ℤ) : Place → List UInt8 → List VaArg → PrintState → Option PrintState
  | _, [], _, _ => none
  | .literal, ch :: fmt, ap, s =>
    if ch = '%'.toUInt8 then scan fd (.directive false) fmt ap s
    else if ch = 0 then some s
    else scan fd .literal fmt ap (putcharfd s fd ch)
  | .directive lflag, ch :: fmt, ap, s =>
    if ch = 'l'.toUInt8 then scan fd (.directive true) fmt ap s
    else (convert s fd lflag ch ap).bind fun r => scan fd .literal fmt r.2 r.1

/-- `init` is an automatic variable: every call finds it 0 and sets `outptr`. -/
def kdoprnt (s : PrintState) (fd : ℤ) (fmt : List UInt8) (ap : List VaArg) : Option PrintState :=
  let init := 0
  let s := if init = 0 then { s with outptr := 0 } else s
  scan fd .literal fmt ap s

inductive Conversion where
  | character
  | string
  | decimal
  | octal
  | unsigned
  | pointer
  | hexadecimal
  | fixedHexadecimal

def Conversion.ofByte (ch : UInt8) : Option Conversion :=
  if ch = 'c'.toUInt8 then some .character
  else if ch = 's'.toUInt8 then some .string
  else if ch = 'd'.toUInt8 then some .decimal
  else if ch = 'o'.toUInt8 then some .octal
  else if ch = 'u'.toUInt8 then some .unsigned
  else if ch = 'p'.toUInt8 then some .pointer
  else if ch = 'x'.toUInt8 then some .hexadecimal
  else if ch = 'X'.toUInt8 then some .fixedHexadecimal
  else none

def numeralText (b n : ℕ) : List UInt8 := (numeral b n).map digitChar

def signedText (i : ℤ) : List UInt8 :=
  (if i < 0 then ['-'.toUInt8] else []) ++ numeralText 10 i.natAbs

def cString (bs : List UInt8) : Option (List UInt8) :=
  if 0 ∈ bs then some (bs.takeWhile fun b => b != 0) else none

def Conversion.text (lflag : Bool) (a : VaArg) : Conversion → Option (List UInt8)
  | character => some [UInt8.ofBitVec (a.word.setWidth 8) &&& 0x7f]
  | string => cString a.target
  | decimal => some (signedText (signedArg lflag a).toInt)
  | octal => some (numeralText 8 (unsignedArg lflag a).toNat)
  | unsigned => some (numeralText 10 (unsignedArg lflag a).toNat)
  | pointer => some (['0'.toUInt8, 'x'.toUInt8] ++ numeralText 16 (unsignedArg true a).toNat)
  | hexadecimal => some (numeralText 16 (unsignedArg lflag a).toNat)
  | fixedHexadecimal =>
    some ((places 16 (unsignedArg lflag a).toNat (if lflag then 16 else 8)).map digitChar)

def verbatim (lflag : Bool) (ch : UInt8) : List UInt8 :=
  '%'.toUInt8 :: (if lflag then ['l'.toUInt8] else []) ++ [ch]

def directiveText (lflag : Bool) (ch : UInt8) (ap : List VaArg) :
    Option (List UInt8 × List VaArg) :=
  match Conversion.ofByte ch, ap with
  | none, ap => some (verbatim lflag ch, ap)
  | some _, [] => none
  | some c, a :: ap => (c.text lflag a).map fun t => (t, ap)

def formattedFrom : Place → List UInt8 → List VaArg → Option (List UInt8)
  | _, [], _ => none
  | .literal, ch :: fmt, ap =>
    if ch = '%'.toUInt8 then formattedFrom (.directive false) fmt ap
    else if ch = 0 then some []
    else (formattedFrom .literal fmt ap).map (ch :: ·)
  | .directive lflag, ch :: fmt, ap =>
    if ch = 'l'.toUInt8 then formattedFrom (.directive true) fmt ap
    else (directiveText lflag ch ap).bind fun r =>
      (formattedFrom .literal fmt r.2).map (r.1 ++ ·)

/-- None when the format runs past its terminator, which happens when it ends inside a
directive, or when the arguments do not match it. -/
def formatted (fmt : List UInt8) (ap : List VaArg) : Option (List UInt8) :=
  formattedFrom .literal fmt ap

def endsInsideDirective : Place → List UInt8 → Bool
  | .literal, [] => false
  | .directive _, [] => true
  | .literal, ch :: f =>
    endsInsideDirective (if ch = '%'.toUInt8 then .directive false else .literal) f
  | .directive _, ch :: f =>
    endsInsideDirective (if ch = 'l'.toUInt8 then .directive true else .literal) f

def conversions : Place → List UInt8 → List Conversion
  | _, [] => []
  | .literal, ch :: f => conversions (if ch = '%'.toUInt8 then .directive false else .literal) f
  | .directive _, ch :: f =>
    if ch = 'l'.toUInt8 then conversions (.directive true) f
    else (Conversion.ofByte ch).toList ++ conversions .literal f

/-- Every directive has its argument, and a string argument is NUL-terminated. -/
def Matching : List Conversion → List VaArg → Prop
  | [], _ => True
  | _ :: _, [] => False
  | c :: cs, a :: ap => (c = .string → 0 ∈ a.target) ∧ Matching cs ap

theorem Conversion.text_isSome (c : Conversion) (lflag : Bool) (a : VaArg) :
    (c.text lflag a).isSome ↔ (c = .string → 0 ∈ a.target) := by
  cases c <;> simp [Conversion.text, cString]

theorem directive_step {lflag : Bool} {ch : UInt8} {ap : List VaArg} {cs : List Conversion}
    {E : Prop} {rest : List VaArg → Option (List UInt8)}
    (ih : ∀ ap, (rest ap).isSome ↔ E ∧ Matching cs ap) :
    ((directiveText lflag ch ap).bind fun r => (rest r.2).map (r.1 ++ ·)).isSome ↔
      E ∧ Matching ((Conversion.ofByte ch).toList ++ cs) ap := by
  unfold directiveText
  rcases Conversion.ofByte ch with _ | c
  · simpa using ih ap
  rcases ap with _ | ⟨a, ap⟩
  · simp [Matching]
  · have htext := c.text_isSome lflag a
    simp only [Option.toList_some, List.singleton_append, Matching, ← htext]
    rcases c.text lflag a with _ | t
    · simp
    · simpa using ih ap

theorem formattedFrom_isSome (place : Place) (f : List UInt8) (ap : List VaArg) (hf : 0 ∉ f) :
    (formattedFrom place (f ++ [0]) ap).isSome ↔
      endsInsideDirective place f = false ∧ Matching (conversions place f) ap := by
  induction f generalizing place ap with
  | nil =>
    cases place with
    | literal =>
      have hnul : (0 : UInt8) ≠ '%'.toUInt8 := by decide
      simp [formattedFrom, endsInsideDirective, conversions, Matching, hnul]
    | directive lflag => simp [formattedFrom, endsInsideDirective]
  | cons ch f ih =>
    have hch : ch ≠ 0 := fun h => hf (h ▸ List.mem_cons_self)
    have hf' : 0 ∉ f := fun h => hf (List.mem_cons_of_mem _ h)
    cases place with
    | literal =>
      rw [List.cons_append, formattedFrom, endsInsideDirective, conversions]
      by_cases hpercent : ch = '%'.toUInt8
      · simp only [if_pos hpercent, ih _ _ hf']
      · simp only [if_neg hpercent, if_neg hch, Option.isSome_map, ih _ _ hf']
    | directive lflag =>
      rw [List.cons_append, formattedFrom, endsInsideDirective, conversions]
      by_cases hl : ch = 'l'.toUInt8
      · simp only [if_pos hl, ih _ _ hf']
      · simp only [if_neg hl]
        exact directive_step fun ap => ih .literal ap hf'

theorem numeralText_of_lt {b n : ℕ} (h : n < b) : numeralText b n = [digitChar n] := by
  rw [numeralText, numeral_of_lt h, List.map_singleton]

theorem numeralText_of_le {b n : ℕ} (hb : 1 < b) (h : b ≤ n) :
    numeralText b n = numeralText b (n / b) ++ [digitChar (n % b)] := by
  rw [numeralText, numeralText, numeral_of_le hb h, List.map_append, List.map_singleton]

theorem kprintnStore_eq {base : ℕ} (hb : 1 < base) (k ul : ℕ) (buf : List UInt8)
    (h : ul < 2 ^ (k + 1)) :
    kprintnStore base (k + 1) ul buf = numeralText base ul ++ buf := by
  induction k generalizing ul buf with
  | zero =>
    have hq : ul / base = 0 := Nat.div_eq_of_lt (by omega)
    have hlt : ul < base := by omega
    simp [kprintnStore, hq, numeralText_of_lt hlt, Nat.mod_eq_of_lt hlt]
  | succ k ih =>
    rw [kprintnStore]
    by_cases hq : ul / base = 0
    · have hlt : ul < base := (Nat.div_eq_zero_iff.mp hq).resolve_left (by omega)
      simp [hq, numeralText_of_lt hlt, Nat.mod_eq_of_lt hlt]
    · have hle : base ≤ ul := by
        by_contra hlt
        exact hq (Nat.div_eq_of_lt (by omega))
      have hhalf : ul / base < 2 ^ (k + 1) := by
        have : ul / base ≤ ul / 2 := Nat.div_le_div_left (by omega) (by decide)
        rw [pow_succ] at h
        omega
      simp only [if_pos hq, ih _ _ hhalf, numeralText_of_le hb hle, List.append_assoc,
        List.singleton_append]

theorem kprintn_eq (s : PrintState) (fd : ℤ) (ul : BitVec 64) {base : ℕ} (hb : 1 < base) :
    kprintn s fd ul base = putAll s fd (numeralText base ul.toNat) := by
  rw [kprintn, kprintnStore_eq hb 63 _ _ ul.isLt, List.append_nil]

theorem putString_eq (s : PrintState) (fd : ℤ) (p : List UInt8) :
    putString s fd p = (cString p).map (putAll s fd) := by
  induction p generalizing s with
  | nil => rfl
  | cons ch p ih =>
    rw [putString]
    by_cases hch : ch = 0
    · simp [hch, cString]
    · rw [if_neg hch, ih]
      by_cases hp : (0 : UInt8) ∈ p
      · simp [cString, hp, hch]
      · simp [cString, hp, Ne.symm hch]

theorem putNibbles_eq (s : PrintState) (fd : ℤ) (ul : BitVec 64) (k : ℕ) :
    putNibbles s fd ul k = putAll s fd ((places 16 ul.toNat k).map digitChar) := by
  induction k generalizing s with
  | zero => rfl
  | succ k ih =>
    have hdigit : ((ul >>> (4 * k)) &&& 0xf).toNat = ul.toNat / 16 ^ k % 16 := by
      rw [BitVec.toNat_and, BitVec.toNat_ushiftRight, Nat.shiftRight_eq_div_pow, pow_mul]
      exact Nat.and_two_pow_sub_one_eq_mod _ 4
    rw [putNibbles, ih, places, hdigit]
    rfl

theorem kprintn_signed (s : PrintState) (fd : ℤ) (ul : BitVec 64) :
    (if ul.toInt < 0 then kprintn (putcharfd s fd '-'.toUInt8) fd (-ul) 10
      else kprintn s fd ul 10) = putAll s fd (signedText ul.toInt) := by
  by_cases hneg : ul.toInt < 0
  · rw [if_pos hneg, kprintn_eq _ _ _ (by decide), signedText, if_pos hneg,
      natAbs_toInt_of_neg hneg]
    rfl
  · rw [if_neg hneg, kprintn_eq _ _ _ (by decide), signedText, if_neg hneg,
      natAbs_toInt_of_nonneg hneg]
    rfl

theorem convert_eq (s : PrintState) (fd : ℤ) (lflag : Bool) (ch : UInt8) (ap : List VaArg) :
    convert s fd lflag ch ap =
      (directiveText lflag ch ap).map fun r => (putAll s fd r.1, r.2) := by
  unfold convert directiveText Conversion.ofByte
  by_cases hc : ch = 'c'.toUInt8
  · simp only [if_pos hc]
    rcases ap with _ | ⟨a, ap⟩ <;> rfl
  by_cases hs : ch = 's'.toUInt8
  · simp only [if_neg hc, if_pos hs]
    rcases ap with _ | ⟨a, ap⟩
    · rfl
    · simp only [putString_eq, Option.map_map, Conversion.text]
      rfl
  by_cases hd : ch = 'd'.toUInt8
  · simp only [if_neg hc, if_neg hs, if_pos hd]
    rcases ap with _ | ⟨a, ap⟩
    · rfl
    · simp only [← apply_ite (fun s => some (s, ap)), kprintn_signed]
      rfl
  by_cases ho : ch = 'o'.toUInt8
  · simp only [if_neg hc, if_neg hs, if_neg hd, if_pos ho]
    rcases ap with _ | ⟨a, ap⟩
    · rfl
    · simp only [kprintn_eq _ _ _ (show 1 < 8 by decide)]
      rfl
  by_cases hu : ch = 'u'.toUInt8
  · simp only [if_neg hc, if_neg hs, if_neg hd, if_neg ho, if_pos hu]
    rcases ap with _ | ⟨a, ap⟩
    · rfl
    · simp only [kprintn_eq _ _ _ (show 1 < 10 by decide)]
      rfl
  by_cases hp : ch = 'p'.toUInt8
  · simp only [if_neg hc, if_neg hs, if_neg hd, if_neg ho, if_neg hu, if_pos hp]
    rcases ap with _ | ⟨a, ap⟩
    · rfl
    · simp only [kprintn_eq _ _ _ (show 1 < 16 by decide)]
      rfl
  by_cases hx : ch = 'x'.toUInt8
  · simp only [if_neg hc, if_neg hs, if_neg hd, if_neg ho, if_neg hu, if_neg hp, if_pos hx]
    rcases ap with _ | ⟨a, ap⟩
    · rfl
    · simp only [kprintn_eq _ _ _ (show 1 < 16 by decide)]
      rfl
  simp only [if_neg hc, if_neg hs, if_neg hd, if_neg ho, if_neg hu, if_neg hp, if_neg hx]
  by_cases hX : ch = 'X'.toUInt8
  · simp only [if_pos hX]
    rcases ap with _ | ⟨a, ap⟩
    · rfl
    · simp only [putNibbles_eq]
      rfl
  · simp only [if_neg hX]
    cases lflag <;> rfl

theorem scan_eq (fd : ℤ) (place : Place) (fmt : List UInt8) (ap : List VaArg) (s : PrintState) :
    scan fd place fmt ap s = (formattedFrom place fmt ap).map (putAll s fd) := by
  induction fmt generalizing place ap s with
  | nil => cases place <;> rfl
  | cons ch fmt ih =>
    cases place with
    | literal =>
      rw [scan, formattedFrom]
      by_cases hpercent : ch = '%'.toUInt8
      · rw [if_pos hpercent, if_pos hpercent, ih]
      by_cases hnul : ch = 0
      · rw [if_neg hpercent, if_pos hnul, if_neg hpercent, if_pos hnul]
        rfl
      · rw [if_neg hpercent, if_neg hnul, if_neg hpercent, if_neg hnul, ih, Option.map_map]
        rfl
    | directive lflag =>
      rw [scan, formattedFrom]
      by_cases hl : ch = 'l'.toUInt8
      · rw [if_pos hl, if_pos hl, ih]
      · rw [if_neg hl, if_neg hl, convert_eq]
        rcases directiveText lflag ch ap with _ | ⟨t, rest⟩
        · rfl
        · simp only [Option.map_some, Option.bind_some, ih, Option.map_map]
          congr 1
          funext u
          exact (putAll_append s fd t u).symm

theorem kdoprnt_eq (s : PrintState) (fd : ℤ) (fmt : List UInt8) (ap : List VaArg) :
    kdoprnt s fd fmt ap = (formatted fmt ap).map (putAll { s with outptr := 0 } fd) := by
  rw [kdoprnt, scan_eq]
  rfl

end PrintFormat

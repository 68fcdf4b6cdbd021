import LibSystemCall.PrintText

/-! # What z_sprintf leaves to its caller

The callers clear the buffer first and count its characters themselves: `z_sprintf`
writes no NUL, and its result is 0 for every text. -/
namespace PrintResult

open ByteMemory PrintFormat PrintScan PrintText

structure Correct (m m' : Memory) (str : ℕ) (t : List UInt8) (count : BitVec 32) : Prop where
  text : load m' str t.length = t
  nul : m' (str + t.length) = 0
  rest : ∀ x, str + t.length < x → m' x = m x
  count : count.toInt = t.length

def Terminates (above : List UInt8) (o : Output) (items : List Item) (ap : List VaArg)
    (t : List UInt8) : Prop :=
  ∃ r, zSprintf above o (spelled items) ap = some r ∧
    Correct o.mem r.2.mem o.str.toNat t r.1

def Item.Vacuous : Item → Prop
  | .plain k => k = .string
  | .padded w k => w.value = 0 ∧ k = .string
  | _ => False

def EmptyString (a : VaArg) : Prop := cString a.target = some []

structure Silent (items : List Item) (ap : List VaArg) : Prop where
  vacuous : ∀ i ∈ items, Item.Vacuous i
  empty : ∀ a ∈ ap.take items.length, EmptyString a

theorem silent_nil (ap : List VaArg) : Silent [] ap := by
  constructor
  · intro i hi
    cases hi
  · intro a ha
    cases ha

theorem silent_cons {i : Item} {items : List Item} {a : VaArg} {ap : List VaArg} :
    Silent (i :: items) (a :: ap) ↔ (Item.Vacuous i ∧ EmptyString a) ∧ Silent items ap := by
  constructor
  · intro h
    refine ⟨⟨h.vacuous i List.mem_cons_self, h.empty a List.mem_cons_self⟩, ?_, ?_⟩
    · intro j hj
      exact h.vacuous j (List.mem_cons_of_mem _ hj)
    · intro b hb
      exact h.empty b (List.mem_cons_of_mem _ hb)
  · rintro ⟨⟨hi, ha⟩, h⟩
    constructor
    · intro j hj
      rcases List.mem_cons.mp hj with rfl | hj
      · exact hi
      · exact h.vacuous j hj
    · intro b hb
      rcases List.mem_cons.mp hb with rfl | hb
      · exact ha
      · exact h.empty b hb

/-- What both ways of padding have in common. -/
def EmptyTogether (pad : Padding) : Prop :=
  ∀ w sign body, pad w sign body = [] ↔ w = 0 ∧ sign = [] ∧ body = []

theorem zeros_empty {w k : ℕ} {sign body : List UInt8} (h : sign = [] → body = [] → k = w) :
    sign ++ (List.replicate k '0'.toUInt8 ++ body) = [] ↔ w = 0 ∧ sign = [] ∧ body = [] := by
  simp only [List.append_eq_nil_iff, List.replicate_eq_nil_iff]
  constructor
  · rintro ⟨hsign, hk, hbody⟩
    exact ⟨(h hsign hbody).symm.trans hk, hsign, hbody⟩
  · rintro ⟨hw, hsign, hbody⟩
    exact ⟨hsign, (h hsign hbody).trans hw, hbody⟩

theorem fullField_empty : EmptyTogether fullField := by
  intro w sign body
  apply zeros_empty
  rintro rfl rfl
  rfl

theorem bodyField_empty : EmptyTogether bodyField := by
  intro w sign body
  apply zeros_empty
  rintro rfl rfl
  rfl

theorem field_empty {pad : Padding} (hpad : EmptyTogether pad) (w : ℕ) {k : Kind} {a : VaArg}
    {s : List UInt8} (hb : k.body a = some s) :
    pad w (k.sign a) s = [] ↔ (w = 0 ∧ k = .string) ∧ EmptyString a := by
  rw [hpad]
  cases k with
  | decimal =>
    obtain rfl := Option.some.inj hb
    simp [PrintDigits.numeralText_ne_nil]
  | hexadecimal =>
    obtain rfl := Option.some.inj hb
    simp [PrintDigits.numeralText_ne_nil]
  | string =>
    have hs : s = [] ↔ EmptyString a := by
      rw [EmptyString, show cString a.target = some s from hb, Option.some.injEq]
    simp [Kind.sign, hs]

theorem never_empty {i : Item} {items : List Item} {ap rest : List VaArg} {t : List UInt8}
    (ht : t ≠ []) (hi : ¬ Item.Vacuous i) :
    t = [] ∧ Silent items rest ↔ Silent (i :: items) ap := by
  apply iff_of_false
  · intro h
    exact ht h.1
  · intro h
    exact hi (h.vacuous i List.mem_cons_self)

theorem text_empty {pad : Padding} (hpad : EmptyTogether pad) {i : Item} {items : List Item}
    {ap : List VaArg} {r : List UInt8 × List VaArg} (h : i.text pad ap = some r) :
    r.1 = [] ∧ Silent items r.2 ↔ Silent (i :: items) ap := by
  cases i with
  | literal ch hch =>
    obtain rfl := Option.some.inj h
    exact never_empty (List.cons_ne_nil _ _) id
  | percent =>
    obtain rfl := Option.some.inj h
    exact never_empty (List.cons_ne_nil _ _) id
  | character =>
    obtain ⟨a, rfl, ht⟩ := character_text h
    rw [ht]
    exact never_empty (List.cons_ne_nil _ _) id
  | plain k =>
    obtain ⟨a, s, rfl, hb, ht⟩ := plain_text h
    rw [ht, silent_cons, field_empty hpad 0 hb]
    simp [Item.Vacuous]
  | padded w k =>
    obtain ⟨a, s, rfl, hb, ht⟩ := padded_text h
    rw [ht, silent_cons, field_empty hpad w.value hb]
    rfl

theorem texts_empty {pad : Padding} (hpad : EmptyTogether pad) {items : List Item}
    {ap : List VaArg} {ts : List (List UInt8)} (h : texts (Item.text pad) items ap = some ts) :
    ts.flatten = [] ↔ Silent items ap := by
  induction items generalizing ap ts with
  | nil =>
    obtain rfl := Option.some.inj h
    exact iff_of_true rfl (silent_nil ap)
  | cons i items ih =>
    obtain ⟨r, hr, hrest⟩ := Option.bind_eq_some_iff.mp h
    obtain ⟨us, hus, rfl⟩ := Option.map_eq_some_iff.mp hrest
    rw [← text_empty hpad hr, ← ih hus, List.flatten_cons, List.append_eq_nil_iff]

theorem Item.Vacuous.conversion {i : Item} (h : Item.Vacuous i) : i.conversion = some .string := by
  cases i with
  | literal ch hch => exact absurd h id
  | percent => exact absurd h id
  | character => exact absurd h id
  | plain k => exact congrArg (some ∘ Kind.conversion) h
  | padded w k => exact congrArg (some ∘ Kind.conversion) h.2

theorem Silent.shortStrings {items : List Item} {ap : List VaArg} (h : Silent items ap) :
    ShortStrings (conversionsOf items) ap := by
  induction items generalizing ap with
  | nil => simp [conversionsOf, ShortStrings]
  | cons i items ih =>
    cases ap with
    | nil => simp [ShortStrings]
    | cons a ap =>
      obtain ⟨⟨hi, ha⟩, h⟩ := silent_cons.mp h
      have hconv : conversionsOf (i :: items) = .string :: conversionsOf items := by
        rw [conversionsOf, List.flatMap_cons, hi.conversion]
        rfl
      rw [hconv]
      refine ⟨?_, ih h⟩
      intro _ s hs
      obtain rfl := Option.some.inj (ha.symm.trans hs)
      exact Nat.two_pow_pos 31

theorem zSprintf_count {above : List UInt8} {o : Output} {fmt : List UInt8} {ap : List VaArg}
    {r : BitVec 32 × Output} (h : zSprintf above o fmt ap = some r) : r.1 = 0 := by
  obtain ⟨s, -, rfl⟩ := Option.map_eq_some_iff.mp h
  rfl

/-- Nothing is stored for a format without characters. -/
theorem zSprintf_silent (above : List UInt8) (o : Output) {items : List Item} {ap : List VaArg}
    (hmatch : Matching (conversionsOf items) ap) (h : Silent items ap) :
    zSprintf above o (spelled items) ap = some (0, o) := by
  obtain ⟨ts, hts⟩ := Option.isSome_iff_exists.mp ((texts_isSome bodyField items ap).mpr hmatch)
  have hnil : ts.flatten = [] := (texts_empty bodyField_empty hts).mpr h
  have hroom : Room o ts.flatten := by
    rw [hnil]
    exact o.str.isLt
  rw [zSprintf_stores above hts h.shortStrings hroom, hnil, append_nil]

/-- The text is terminated and counted only when there is nothing to write. -/
theorem terminates_iff (above : List UInt8) (o : Output) {items : List Item} {ap : List VaArg}
    {t : List UInt8} (h : formattedText items ap = some t) :
    Terminates above o items ap t ↔ Silent items ap ∧ o.mem o.str.toNat = 0 := by
  obtain ⟨ts, hts, rfl⟩ := Option.map_eq_some_iff.mp h
  have hmatch : Matching (conversionsOf items) ap := by
    rw [← texts_isSome fullField, hts]
    rfl
  have hempty := texts_empty fullField_empty hts
  constructor
  · rintro ⟨r, hr, hc⟩
    have hlen := hc.count
    rw [zSprintf_count hr] at hlen
    have hzero : (0 : BitVec 32).toInt = 0 := by decide
    have hnil : ts.flatten = [] := List.eq_nil_of_length_eq_zero (by omega)
    have hs := hempty.mp hnil
    have hnul := hc.nul
    rw [zSprintf_silent above o hmatch hs] at hr
    obtain rfl := Option.some.inj hr
    rw [hnil] at hnul
    exact ⟨hs, hnul⟩
  · rintro ⟨hs, hnul⟩
    have hnil := hempty.mpr hs
    refine ⟨(0, o), zSprintf_silent above o hmatch hs, ?_⟩
    rw [hnil]
    constructor
    · rfl
    · exact hnul
    · intro x _
      rfl
    · rfl

/-- `"%s"` with `""`, into a buffer that starts with a NUL. -/
theorem empty_string_terminates :
    formattedText [.plain .string] [⟨0, [0]⟩] = some [] ∧
      Terminates [] ⟨fun _ => 0, 0⟩ [.plain .string] [⟨0, [0]⟩] [] := by
  have htext : formattedText [.plain .string] [⟨0, [0]⟩] = some [] := rfl
  have hs : Silent [.plain .string] [⟨0, [0]⟩] := silent_cons.mpr ⟨⟨rfl, rfl⟩, silent_nil _⟩
  exact ⟨htext, (terminates_iff [] ⟨fun _ => 0, 0⟩ htext).mpr ⟨hs, rfl⟩⟩

/-- `"%s"` with `"ab"`, into a buffer of ones: no NUL behind the text, and the result is 0. -/
theorem ab_not_terminated :
    formattedText [.plain .string] [⟨0, ['a'.toUInt8, 'b'.toUInt8, 0]⟩] =
        some ['a'.toUInt8, 'b'.toUInt8] ∧
      (zSprintf [] ⟨fun _ => 1, 0⟩ (spelled [.plain .string])
        [⟨0, ['a'.toUInt8, 'b'.toUInt8, 0]⟩]).map (fun r => (r.1, load r.2.mem 0 4)) =
          some (0, ['a'.toUInt8, 'b'.toUInt8, 1, 1]) ∧
      ¬ Terminates [] ⟨fun _ => 1, 0⟩ [.plain .string] [⟨0, ['a'.toUInt8, 'b'.toUInt8, 0]⟩]
        ['a'.toUInt8, 'b'.toUInt8] := by
  refine ⟨by decide, by decide, ?_⟩
  rintro ⟨r, hr, hc⟩
  have hlen := hc.count
  rw [zSprintf_count hr] at hlen
  exact absurd hlen (by decide)

end PrintResult

import LibSystemCall.InetAddress

/-! # Which texts z_inet_aton takes

It looks at the byte behind the last part only: neither the number of the parts nor their
lengths and values are checked. -/
namespace InetQuads

open ByteMemory PrintScan PrintDigits InetAddress

def whiteSpace : List UInt8 := [9, 10, 11, 12, 13, 32]

theorem zIsspace_iff (c : UInt8) : zIsspace c ↔ c ∈ whiteSpace := by
  have hbytes : ∀ n < 256, zIsspace (UInt8.ofNat n) ↔ UInt8.ofNat n ∈ whiteSpace := by
    decide +kernel
  have h := hbytes c.toNat c.toNat_lt
  rwa [UInt8.ofNat_toNat] at h

/-- Four non-empty decimal numbers of at most 255, and then the end or white space. -/
structure IsQuad (s : List UInt8) (parts : List (List UInt8)) : Prop where
  text : ∃ rest, s = dotted parts ++ rest ∧ ∀ c ∈ rest.head?, c ∈ whiteSpace
  four : parts.length = 4
  digits : ∀ p ∈ parts, AllDigits p
  octets : ∀ p ∈ parts, p ≠ [] ∧ decimalValue p ≤ 255

def HasOctets (u : BitVec 32) (parts : List (List UInt8)) : Prop :=
  octets u = parts.map fun p => UInt8.ofNat (decimalValue p)

/-- Only quads have an address, and the others give 0. -/
structure OnlyQuads (s : List UInt8) (u : BitVec 32) : Prop where
  quad : u ≠ 0 → ∃ parts, IsQuad s parts ∧ HasOctets u parts
  other : (∀ parts, ¬ IsQuad s parts) → u = 0

/-- How every text is read: digits with dots between them, and what stands behind. -/
structure Reading (s : List UInt8) (parts : List (List UInt8)) (rest : List UInt8) : Prop where
  text : s = dotted parts ++ rest
  nonempty : parts ≠ []
  digits : ∀ p ∈ parts, AllDigits p
  stops : ∀ c ∈ rest.head?, ¬ zIsdigit c ∧ c ≠ '.'.toUInt8

/-- At most four parts, and then a byte that is refused, or four octets, or numbers that add up
to nothing. -/
def Harmless (parts : List (List UInt8)) (rest : List UInt8) : Prop :=
  parts.length ≤ 4 ∧ ((∃ c ∈ rest.head?, c ∉ whiteSpace) ∨
    (parts.length = 4 ∧ ∀ p ∈ parts, p ≠ [] ∧ decimalValue p ≤ 255) ∨
    2 ^ 32 ∣ addressValue (parts.map decimalValue))

theorem dotted_cons (c : UInt8) (p : List UInt8) (parts : List (List UInt8)) :
    dotted ((c :: p) :: parts) = c :: dotted (p :: parts) := by
  cases parts <;> rfl

theorem exists_reading (s : List UInt8) : ∃ parts rest, Reading s parts rest := by
  induction s with
  | nil =>
    refine ⟨[[]], [], rfl, List.cons_ne_nil _ _, ?_, ?_⟩
    · intro p hp
      obtain rfl := List.mem_singleton.mp hp
      intro c hc
      cases hc
    · intro c hc
      cases hc
  | cons c s ih =>
    obtain ⟨parts, rest, htext, hne, hdigits, hstops⟩ := ih
    cases parts with
    | nil => exact absurd rfl hne
    | cons p parts =>
      obtain ⟨hp, hparts⟩ := List.forall_mem_cons.mp hdigits
      by_cases hc : zIsdigit c
      · refine ⟨(c :: p) :: parts, rest, ?_, List.cons_ne_nil _ _, ?_, hstops⟩
        · rw [dotted_cons, List.cons_append, htext]
        · exact List.forall_mem_cons.mpr ⟨List.forall_mem_cons.mpr ⟨hc, hp⟩, hparts⟩
      by_cases hdot : c = '.'.toUInt8
      · refine ⟨[] :: p :: parts, rest, ?_, List.cons_ne_nil _ _, ?_, hstops⟩
        · rw [dotted, List.nil_append, List.cons_append, hdot, htext]
        · exact List.forall_mem_cons.mpr ⟨fun x hx => absurd hx List.not_mem_nil, hdigits⟩
      · refine ⟨[[]], c :: s, rfl, List.cons_ne_nil _ _, ?_, ?_⟩
        · intro q hq
          obtain rfl := List.mem_singleton.mp hq
          exact fun x hx => absurd hx List.not_mem_nil
        · intro x hx
          obtain rfl := Option.some.inj hx
          exact ⟨hc, hdot⟩

section

variable {s rest : List UInt8} {parts : List (List UInt8)}

theorem Reading.stop (h : Reading s parts rest) :
    ∃ d rest', s ++ [0] = dotted parts ++ d :: rest' ∧ ¬ zIsdigit d ∧ d ≠ '.'.toUInt8 ∧
      (rest = [] ∧ d = 0 ∨ rest.head? = some d) := by
  cases rest with
  | nil =>
    refine ⟨0, [], ?_, nul_ends.1, nul_ends.2, .inl ⟨rfl, rfl⟩⟩
    rw [h.text, List.append_nil]
  | cons d rest =>
    obtain ⟨hd, hdot⟩ := h.stops d rfl
    refine ⟨d, rest ++ [0], ?_, hd, hdot, .inr rfl⟩
    rw [h.text, List.append_assoc, List.cons_append]

theorem Reading.too_many (h : Reading s parts rest) (hmany : 4 < parts.length) :
    zInetAton (s ++ [0]) = none := by
  obtain ⟨d, rest', htext, hd, -⟩ := h.stop
  rw [htext]
  exact zInetAton_too_many h.digits hmany hd rest'

theorem Reading.refused (h : Reading s parts rest) (hs : 0 ∉ s) (hfour : parts.length ≤ 4)
    (hrest : ∃ c ∈ rest.head?, c ∉ whiteSpace) : zInetAton (s ++ [0]) = some 0 := by
  obtain ⟨d, rest', htext, hd, hdot, ⟨rfl, -⟩ | hfirst⟩ := h.stop
  · obtain ⟨c, hc, -⟩ := hrest
    cases hc
  · obtain ⟨c, hc, hspace⟩ := hrest
    obtain rfl : d = c := Option.some.inj (hfirst.symm.trans hc)
    have hnul : d ≠ 0 := by
      rintro rfl
      apply hs
      rw [h.text]
      exact List.mem_append_right _ (List.mem_of_head? hfirst)
    rw [htext, zInetAton_parts h.nonempty h.digits hfour hd hdot,
      if_pos ⟨hnul, mt (zIsspace_iff d).mp hspace⟩]

theorem Reading.taken (h : Reading s parts rest) (hfour : parts.length ≤ 4)
    (hrest : ∀ c ∈ rest.head?, c ∈ whiteSpace) :
    zInetAton (s ++ [0]) =
      some (BitVec.ofNat 32 (addressValue (parts.map decimalValue))) := by
  obtain ⟨d, rest', htext, hd, hdot, hfirst⟩ := h.stop
  have hend : ¬ (d ≠ 0 ∧ ¬ zIsspace d) := by
    rintro ⟨hnul, hspace⟩
    rcases hfirst with ⟨-, rfl⟩ | hfirst
    · exact hnul rfl
    · exact hspace ((zIsspace_iff d).mpr (hrest d hfirst))
  rw [htext, zInetAton_parts h.nonempty h.digits hfour hd hdot, if_neg hend]

theorem ofNat_eq_zero_iff (n : ℕ) : BitVec.ofNat 32 n = 0 ↔ 2 ^ 32 ∣ n := by
  rw [Nat.dvd_iff_mod_eq_zero]
  constructor
  · intro h
    have := congrArg BitVec.toNat h
    rwa [BitVec.toNat_ofNat] at this
  · intro h
    apply BitVec.eq_of_toNat_eq
    rw [BitVec.toNat_ofNat, h]
    rfl

theorem hasOctets (hfour : parts.length = 4)
    (hoctets : ∀ p ∈ parts, decimalValue p ≤ 255) :
    HasOctets (BitVec.ofNat 32 (addressValue (parts.map decimalValue))) parts := by
  have hvalue (ps : List (List UInt8)) (hps : ∀ p ∈ ps, decimalValue p ≤ 255) :
      addressValue (ps.map decimalValue) =
        leValue (ps.map fun p => UInt8.ofNat (decimalValue p)) := by
    induction ps with
    | nil => rfl
    | cons p ps ih =>
      obtain ⟨hp, hps⟩ := List.forall_mem_cons.mp hps
      rw [List.map_cons, addressValue, ih hps, List.map_cons, leValue, UInt8.toNat_ofNat',
        Nat.mod_eq_of_lt (by omega)]
  have hlt : leValue (parts.map fun p => UInt8.ofNat (decimalValue p)) < 2 ^ 32 := by
    have h := leValue_lt (parts.map fun p => UInt8.ofNat (decimalValue p))
    rwa [List.length_map, hfour] at h
  have hback := leBytes_leValue (parts.map fun p => UInt8.ofNat (decimalValue p))
  rw [List.length_map, hfour] at hback
  rw [HasOctets, octets, BitVec.toNat_ofNat, hvalue parts hoctets, Nat.mod_eq_of_lt hlt, hback]

theorem IsQuad.reading (h : IsQuad s parts) :
    ∃ rest, Reading s parts rest ∧ ∀ c ∈ rest.head?, c ∈ whiteSpace := by
  obtain ⟨rest, htext, hwhite⟩ := h.text
  have hfour := h.four
  refine ⟨rest, ⟨htext, ?_, h.digits, ?_⟩, hwhite⟩
  · rintro rfl
    cases hfour
  · intro c hc
    have hplain : ∀ c ∈ whiteSpace, ¬ zIsdigit c ∧ c ≠ '.'.toUInt8 := by decide +kernel
    exact hplain c (hwhite c hc)

theorem only_quads_iff (hs : 0 ∉ s) :
    (∃ u, zInetAton (s ++ [0]) = some u ∧ OnlyQuads s u) ↔
      ∃ parts rest, Reading s parts rest ∧ Harmless parts rest := by
  constructor
  · rintro ⟨u, hu, honly⟩
    obtain ⟨parts, rest, hread⟩ := exists_reading s
    have hfour : parts.length ≤ 4 := by
      by_contra hmany
      rw [hread.too_many (by omega)] at hu
      cases hu
    by_cases hrefused : ∃ c ∈ rest.head?, c ∉ whiteSpace
    · exact ⟨parts, rest, hread, hfour, .inl hrefused⟩
    push Not at hrefused
    by_cases hzero : u = 0
    · rw [hread.taken hfour hrefused, hzero, Option.some.injEq, ofNat_eq_zero_iff] at hu
      exact ⟨parts, rest, hread, hfour, .inr (.inr hu)⟩
    · obtain ⟨quads, hquad, -⟩ := honly.quad hzero
      obtain ⟨rest', hread', -⟩ := hquad.reading
      exact ⟨quads, rest', hread', hquad.four.le, .inr (.inl ⟨hquad.four, hquad.octets⟩)⟩
  · rintro ⟨parts, rest, hread, hfour, hcases⟩
    have hnone : OnlyQuads s 0 := ⟨fun h => absurd rfl h, fun _ => rfl⟩
    by_cases hrefused : ∃ c ∈ rest.head?, c ∉ whiteSpace
    · exact ⟨0, hread.refused hs hfour hrefused, hnone⟩
    push Not at hrefused
    refine ⟨_, hread.taken hfour hrefused, ?_⟩
    rcases hcases with hcase | ⟨hlen, hoctets⟩ | hsum
    · obtain ⟨c, hc, hspace⟩ := hcase
      exact absurd (hrefused c hc) hspace
    · have hquad : IsQuad s parts :=
        ⟨⟨rest, hread.text, hrefused⟩, hlen, hread.digits, hoctets⟩
      constructor
      · intro _
        exact ⟨parts, hquad, hasOctets hlen fun p hp => (hoctets p hp).2⟩
      · intro hother
        exact absurd hquad (hother parts)
    · rw [(ofNat_eq_zero_iff _).mpr hsum]
      exact hnone

end

/-- "1.2.3.4" -/
theorem only_quads_iff_four :
    (∃ u, zInetAton ([49, 46, 50, 46, 51, 46, 52] ++ [0]) = some u ∧
        OnlyQuads [49, 46, 50, 46, 51, 46, 52] u) ↔
      ∃ parts rest, Reading [49, 46, 50, 46, 51, 46, 52] parts rest ∧ Harmless parts rest :=
  only_quads_iff (by decide)

theorem dot_mem_dotted {parts : List (List UInt8)} (h : 1 < parts.length) :
    '.'.toUInt8 ∈ dotted parts := by
  match parts with
  | [] => exact absurd h (by decide)
  | [p] => exact absurd h (by simp)
  | p :: q :: parts =>
    rw [dotted]
    exact List.mem_append_right _ List.mem_cons_self

/-- "10" has one part only, and is taken for 10.0.0.0. -/
theorem one_part_taken :
    zInetAton ([49, 48] ++ [0]) = some 10 ∧
      ¬ ∀ s : List UInt8, 0 ∉ s → ∃ u, zInetAton (s ++ [0]) = some u ∧ OnlyQuads s u := by
  have hrun : zInetAton ([49, 48] ++ [0]) = some 10 := by decide
  refine ⟨hrun, ?_⟩
  intro h
  obtain ⟨u, hu, honly⟩ := h [49, 48] (by decide)
  obtain rfl := Option.some.inj (hrun.symm.trans hu)
  obtain ⟨parts, hquad, -⟩ := honly.quad (by decide)
  obtain ⟨rest, htext, -⟩ := hquad.text
  have hdot : '.'.toUInt8 ∈ dotted parts ++ rest := by
    refine List.mem_append_left _ (dot_mem_dotted ?_)
    rw [hquad.four]
    decide
  rw [← htext] at hdot
  exact absurd hdot (by decide)

end InetQuads

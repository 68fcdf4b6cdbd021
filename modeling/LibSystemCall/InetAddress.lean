import LibSystemCall.PrintRoundTrip

/-! # Dotted quads

`z_inet_ntoa` prints the bytes of an address with `z_sprintf`. `z_inet_aton` adds up decimal
numbers between dots, each one shifted by its position; `u_tmp` and `u_ipaddr` wrap. -/
namespace InetAddress

open ByteMemory ByteScan PrintFormat PrintScan PrintDigits PrintText PrintRoundTrip

/-- The byte is a `z_int8`, and the difference is taken as unsigned. -/
def zIsspace (ch : UInt8) : Bool :=
  (ch.toBitVec.signExtend 32 - 9).toNat < 5 || ch = ' '.toUInt8

structure AtonState where
  ipaddr : BitVec 32
  tmp : BitVec 32
  recycle : ℕ
  c : UInt8

/-- A byte `c`. C does not define the shift of a fifth part, by 32 bits. -/
def atonTurn (s : AtonState) (c : UInt8) : Turn AtonState :=
  if zIsdigit c then
    .next { s with tmp := s.tmp * 10 + (BitVec.ofNat 32 c.toNat - 0x30), c := c }
  else
    let shift := 8 * s.recycle
    if shift ≥ 32 then .stuck
    else
      let ipaddr := s.ipaddr + s.tmp <<< shift
      if c = '.'.toUInt8 then .next ⟨ipaddr, 0, s.recycle + 1, c⟩
      else .done ⟨ipaddr, s.tmp <<< shift, s.recycle + 1, c⟩

/-- On the bytes from `c_ipaddr` on. -/
def zInetAton (cIpaddr : List UInt8) : Option (BitVec 32) :=
  (consume atonTurn cIpaddr ⟨0, 0, 0, 0⟩).map fun s =>
    if s.c ≠ 0 ∧ ¬ zIsspace s.c then 0 else s.ipaddr

def quadFormat : List UInt8 :=
  ['%'.toUInt8, 'd'.toUInt8, '.'.toUInt8, '%'.toUInt8, 'd'.toUInt8, '.'.toUInt8,
    '%'.toUInt8, 'd'.toUInt8, '.'.toUInt8, '%'.toUInt8, 'd'.toUInt8, 0]

def bufferSize : ℕ := 128

def octets (a : BitVec 32) : List UInt8 := leBytes 4 a.toNat

def byteArg (b : UInt8) : VaArg := ⟨BitVec.ofNat 64 b.toNat, []⟩

/-- The memory with the text in `buffer`, whose address is returned. -/
def zInetNtoa (above : List UInt8) (m : Memory) (buffer : BitVec 64) (a : BitVec 32) :
    Option (Memory × BitVec 64) :=
  let m := store m buffer.toNat (List.replicate bufferSize 0)
  (zSprintf above ⟨m, buffer⟩ quadFormat ((octets a).map byteArg)).map fun r =>
    (r.2.mem, buffer)

def dotted : List (List UInt8) → List UInt8
  | [] => []
  | [p] => p
  | p :: q :: ps => p ++ '.'.toUInt8 :: dotted (q :: ps)

def quadText (bytes : List UInt8) : List UInt8 :=
  dotted (bytes.map fun b => numeralText 10 b.toNat)

def addressValue : List ℕ → ℕ
  | [] => 0
  | n :: ns => n + 256 * addressValue ns

theorem addressValue_bytes (bytes : List UInt8) :
    addressValue (bytes.map UInt8.toNat) = leValue bytes := by
  induction bytes with
  | nil => rfl
  | cons b bytes ih => rw [List.map_cons, addressValue, leValue, ih]

theorem dot_not_digit : zIsdigit '.'.toUInt8 = false := by decide

theorem consume_part {ds : List UInt8} (hds : AllDigits ds) (s : AtonState) (v : ℕ)
    (hs : s.tmp = BitVec.ofNat 32 v) (rest : List UInt8) :
    ∃ c, consume atonTurn (ds ++ rest) s = consume atonTurn rest
      ⟨s.ipaddr, BitVec.ofNat 32 ((ds.map digitValue).foldl (fun v d => v * 10 + d) v),
        s.recycle, c⟩ := by
  induction ds generalizing s v with
  | nil => exact ⟨s.c, by rw [List.map_nil, List.foldl_nil, ← hs, List.nil_append]⟩
  | cons c ds ih =>
    have hc := hds c List.mem_cons_self
    have hrest : AllDigits ds := fun x hx => hds x (List.mem_cons_of_mem _ hx)
    have hstep : s.tmp * 10 + (BitVec.ofNat 32 c.toNat - 0x30) =
        BitVec.ofNat 32 (v * 10 + digitValue c) := by
      rw [hs, ← accumulate_step hc, BitVec.sub_eq_add_neg, BitVec.sub_eq_add_neg,
        BitVec.add_assoc]
      rfl
    obtain ⟨c', hc'⟩ := ih hrest
      ⟨s.ipaddr, s.tmp * 10 + (BitVec.ofNat 32 c.toNat - 0x30), s.recycle, c⟩ _ hstep
    refine ⟨c', ?_⟩
    rw [List.cons_append, consume, atonTurn, if_pos hc, List.map_cons, List.foldl_cons]
    exact hc'

theorem shifted (v k : ℕ) :
    BitVec.ofNat 32 v <<< (8 * k) = BitVec.ofNat 32 (256 ^ k * v) := by
  have hpow : (2 : ℕ) ^ (8 * k) = 256 ^ k := by rw [Nat.pow_mul]
  apply BitVec.eq_of_toNat_eq
  rw [BitVec.toNat_shiftLeft, Nat.shiftLeft_eq, hpow, BitVec.toNat_ofNat, BitVec.toNat_ofNat,
    Nat.mod_mul_mod, Nat.mul_comm]

section Turns
variable {ip v k : ℕ} {c d : UInt8}

theorem atonTurn_dot (hk : k < 4) :
    atonTurn ⟨BitVec.ofNat 32 ip, BitVec.ofNat 32 v, k, c⟩ '.'.toUInt8 =
      .next ⟨BitVec.ofNat 32 (ip + 256 ^ k * v), 0, k + 1, '.'.toUInt8⟩ := by
  have hshift : ¬ 8 * k ≥ 32 := by omega
  rw [atonTurn, if_neg (by simp [dot_not_digit])]
  simp only [if_neg hshift, if_pos, shifted, BitVec.ofNat_add]

theorem atonTurn_end (hk : k < 4) (hd : ¬ zIsdigit d) (hdot : d ≠ '.'.toUInt8) :
    atonTurn ⟨BitVec.ofNat 32 ip, BitVec.ofNat 32 v, k, c⟩ d =
      .done ⟨BitVec.ofNat 32 (ip + 256 ^ k * v), BitVec.ofNat 32 (256 ^ k * v), k + 1, d⟩ := by
  have hshift : ¬ 8 * k ≥ 32 := by omega
  rw [atonTurn, if_neg hd]
  simp only [if_neg hshift, if_neg hdot, shifted, BitVec.ofNat_add]

theorem atonTurn_stuck (hk : 4 ≤ k) (hd : ¬ zIsdigit d) {ipaddr tmp : BitVec 32} :
    atonTurn ⟨ipaddr, tmp, k, c⟩ d = .stuck := by
  have hshift : 8 * k ≥ 32 := by omega
  rw [atonTurn, if_neg hd]
  simp only [if_pos hshift]

end Turns

theorem consume_digits {p : List UInt8} (hp : AllDigits p) (ipaddr : BitVec 32) (k : ℕ) (c : UInt8)
    (rest : List UInt8) :
    ∃ c', consume atonTurn (p ++ rest) ⟨ipaddr, 0, k, c⟩ =
      consume atonTurn rest ⟨ipaddr, BitVec.ofNat 32 (decimalValue p), k, c'⟩ :=
  consume_part hp ⟨ipaddr, 0, k, c⟩ 0 rfl rest

theorem consume_dot {p : List UInt8} (hp : AllDigits p) {k : ℕ} (hk : k < 4) (ip : ℕ) (c : UInt8)
    (rest : List UInt8) :
    consume atonTurn (p ++ '.'.toUInt8 :: rest) ⟨BitVec.ofNat 32 ip, 0, k, c⟩ =
      consume atonTurn rest
        ⟨BitVec.ofNat 32 (ip + 256 ^ k * decimalValue p), 0, k + 1, '.'.toUInt8⟩ := by
  obtain ⟨c', hc'⟩ := consume_digits hp (BitVec.ofNat 32 ip) k c ('.'.toUInt8 :: rest)
  rw [hc', consume, atonTurn_dot hk]

theorem consume_parts {parts : List (List UInt8)} (hne : parts ≠ [])
    (hparts : ∀ p ∈ parts, AllDigits p) {d : UInt8} (hd : ¬ zIsdigit d)
    (hdot : d ≠ '.'.toUInt8) (rest : List UInt8) {k : ℕ} (hk : k + parts.length ≤ 4) (ip : ℕ)
    (c : UInt8) :
    ∃ tmp r, consume atonTurn (dotted parts ++ d :: rest) ⟨BitVec.ofNat 32 ip, 0, k, c⟩ =
      some ⟨BitVec.ofNat 32 (ip + 256 ^ k * addressValue (parts.map decimalValue)), tmp, r, d⟩ := by
  induction parts generalizing k ip c with
  | nil => exact absurd rfl hne
  | cons p parts ih =>
    have hp := hparts p List.mem_cons_self
    rw [List.length_cons] at hk
    cases parts with
    | nil =>
      obtain ⟨c', hc'⟩ := consume_digits hp (BitVec.ofNat 32 ip) k c (d :: rest)
      refine ⟨BitVec.ofNat 32 (256 ^ k * decimalValue p), k + 1, ?_⟩
      rw [dotted, hc', consume, atonTurn_end (by omega) hd hdot]
      rfl
    | cons q parts =>
      obtain ⟨tmp, r, hrun⟩ := ih (List.cons_ne_nil _ _)
        (fun x hx => hparts x (List.mem_cons_of_mem _ hx)) (k := k + 1) (by omega)
        (ip + 256 ^ k * decimalValue p) '.'.toUInt8
      refine ⟨tmp, r, ?_⟩
      have hvalue : ip + 256 ^ k * decimalValue p +
          256 ^ (k + 1) * addressValue ((q :: parts).map decimalValue) =
          ip + 256 ^ k * addressValue ((p :: q :: parts).map decimalValue) := by
        simp only [List.map_cons, addressValue]
        ring
      rw [dotted, List.append_assoc, List.cons_append, consume_dot hp (by omega), hrun, hvalue]

theorem first_part (p : List UInt8) (parts : List (List UInt8)) {d : UInt8} (hd : ¬ zIsdigit d)
    (rest : List UInt8) :
    ∃ e rest', ¬ zIsdigit e ∧ dotted (p :: parts) ++ d :: rest = p ++ e :: rest' := by
  cases parts with
  | nil => exact ⟨d, rest, hd, rfl⟩
  | cons q parts =>
    refine ⟨'.'.toUInt8, dotted (q :: parts) ++ d :: rest, by simp [dot_not_digit], ?_⟩
    rw [dotted, List.append_assoc, List.cons_append]

/-- A fifth part is shifted out of the word. -/
theorem consume_too_many {parts : List (List UInt8)} (hparts : ∀ p ∈ parts, AllDigits p)
    {d : UInt8} (hd : ¬ zIsdigit d) (rest : List UInt8) {k : ℕ} (hk : k ≤ 4)
    (hmany : 4 < k + parts.length) (ip : ℕ) (c : UInt8) :
    consume atonTurn (dotted parts ++ d :: rest) ⟨BitVec.ofNat 32 ip, 0, k, c⟩ = none := by
  induction parts generalizing k ip c with
  | nil =>
    rw [List.length_nil] at hmany
    omega
  | cons p parts ih =>
    have hp := hparts p List.mem_cons_self
    rw [List.length_cons] at hmany
    by_cases hlast : k = 4
    · obtain ⟨e, rest', he, hbytes⟩ := first_part p parts hd rest
      obtain ⟨c', hc'⟩ := consume_digits hp (BitVec.ofNat 32 ip) k c (e :: rest')
      rw [hbytes, hc', consume, atonTurn_stuck (by omega) he]
    · cases parts with
      | nil =>
        rw [List.length_nil] at hmany
        omega
      | cons q parts =>
        rw [dotted, List.append_assoc, List.cons_append, consume_dot hp (by omega)]
        exact ih (fun x hx => hparts x (List.mem_cons_of_mem _ hx)) (by omega) (by omega) _ _

theorem zInetAton_parts {parts : List (List UInt8)} (hne : parts ≠ [])
    (hparts : ∀ p ∈ parts, AllDigits p) (hfour : parts.length ≤ 4) {d : UInt8}
    (hd : ¬ zIsdigit d) (hdot : d ≠ '.'.toUInt8) (rest : List UInt8) :
    zInetAton (dotted parts ++ d :: rest) =
      some (if d ≠ 0 ∧ ¬ zIsspace d then 0
        else BitVec.ofNat 32 (addressValue (parts.map decimalValue))) := by
  obtain ⟨tmp, r, hrun⟩ := consume_parts hne hparts hd hdot rest (k := 0) (by omega) 0 0
  rw [Nat.pow_zero, Nat.one_mul, Nat.zero_add] at hrun
  have hstart : consume atonTurn (dotted parts ++ d :: rest) ⟨0, 0, 0, 0⟩ = some
      ⟨BitVec.ofNat 32 (addressValue (parts.map decimalValue)), tmp, r, d⟩ := hrun
  rw [zInetAton, hstart, Option.map_some]

theorem zInetAton_too_many {parts : List (List UInt8)} (hparts : ∀ p ∈ parts, AllDigits p)
    (hmany : 4 < parts.length) {d : UInt8} (hd : ¬ zIsdigit d) (rest : List UInt8) :
    zInetAton (dotted parts ++ d :: rest) = none := by
  have hrun : consume atonTurn (dotted parts ++ d :: rest) ⟨0, 0, 0, 0⟩ = none :=
    consume_too_many hparts hd rest (by omega) (by omega) 0 0
  rw [zInetAton, hrun, Option.map_none]

def dotItem : Item := .literal '.'.toUInt8 (by decide)

def quadItems : List Item :=
  [.plain .decimal, dotItem, .plain .decimal, dotItem, .plain .decimal, dotItem, .plain .decimal]

theorem octet_text (b : UInt8) (ap : List VaArg) :
    (Item.plain .decimal).text bodyField (byteArg b :: ap) =
      some (numeralText 10 b.toNat, ap) := by
  have hb := b.toNat_lt
  have hword : ((byteArg b).word.setWidth 32).toInt = b.toNat := by
    have hnat : ((byteArg b).word.setWidth 32).toNat = b.toNat := by
      rw [byteArg, BitVec.toNat_setWidth, BitVec.toNat_ofNat]
      omega
    rw [BitVec.toInt_eq_toNat_of_lt (by omega), hnat]
  have hsign : Kind.decimal.sign (byteArg b) = [] := by
    rw [Kind.sign, hword, if_neg (by omega)]
  have hbody : Kind.decimal.body (byteArg b) = some (numeralText 10 b.toNat) := by
    rw [Kind.body, hword, Int.natAbs_natCast]
  rw [Item.text, hbody, hsign]
  simp [bodyField]

theorem quadItems_text (b0 b1 b2 b3 : UInt8) :
    texts (Item.text bodyField) quadItems ([b0, b1, b2, b3].map byteArg) =
      some [numeralText 10 b0.toNat, ['.'.toUInt8], numeralText 10 b1.toNat, ['.'.toUInt8],
        numeralText 10 b2.toNat, ['.'.toUInt8], numeralText 10 b3.toNat] := by
  have hdot (ap : List VaArg) : dotItem.text bodyField ap = some (['.'.toUInt8], ap) := rfl
  simp only [quadItems, texts, List.map_cons, List.map_nil, octet_text, hdot, Option.bind_some,
    Option.map_some]

theorem length_octet (b : UInt8) : (numeralText 10 b.toNat).length ≤ 3 := by
  have hb := b.toNat_lt
  rw [length_numeralText]
  exact Numerals.length_numeral_le (by decide) (by decide) (by omega)

theorem length_quadText (b0 b1 b2 b3 : UInt8) : (quadText [b0, b1, b2, b3]).length ≤ 15 := by
  have h0 := length_octet b0
  have h1 := length_octet b1
  have h2 := length_octet b2
  have h3 := length_octet b3
  simp only [quadText, List.map_cons, List.map_nil, dotted, List.length_append, List.length_cons]
  omega

theorem zSprintf_quad (above : List UInt8) {o : Output} (b0 b1 b2 b3 : UInt8)
    (hroom : o.str.toNat + 15 < 2 ^ 64) :
    zSprintf above o quadFormat ([b0, b1, b2, b3].map byteArg) =
      some (0, append o (quadText [b0, b1, b2, b3])) := by
  have hlen := length_quadText b0 b1 b2 b3
  have hflat : [numeralText 10 b0.toNat, ['.'.toUInt8], numeralText 10 b1.toNat, ['.'.toUInt8],
      numeralText 10 b2.toNat, ['.'.toUInt8], numeralText 10 b3.toNat].flatten =
      quadText [b0, b1, b2, b3] := by
    simp [quadText, dotted]
  have hshort : ShortStrings (conversionsOf quadItems) ([b0, b1, b2, b3].map byteArg) := by
    simp [quadItems, dotItem, conversionsOf, Item.conversion, Kind.conversion, ShortStrings]
  have hfit : Room o (quadText [b0, b1, b2, b3]) := by
    unfold Room
    omega
  have hrun := zSprintf_stores above (quadItems_text b0 b1 b2 b3) hshort (o := o)
    (by rw [hflat]; exact hfit)
  rw [hflat] at hrun
  exact hrun

theorem dotted_not_mem {c : UInt8} (hc : ¬ zIsdigit c) (hdot : c ≠ '.'.toUInt8)
    {parts : List (List UInt8)} (hparts : ∀ p ∈ parts, AllDigits p) : c ∉ dotted parts := by
  induction parts with
  | nil => exact List.not_mem_nil
  | cons p parts ih =>
    have hp : c ∉ p := fun h => hc (hparts p List.mem_cons_self c h)
    cases parts with
    | nil => exact hp
    | cons q parts =>
      have hrest := ih fun x hx => hparts x (List.mem_cons_of_mem _ hx)
      rw [dotted, List.mem_append, List.mem_cons]
      rintro (h | h | h)
      · exact hp h
      · exact hdot h
      · exact hrest h

theorem nul_ends : ¬ zIsdigit 0 ∧ (0 : UInt8) ≠ '.'.toUInt8 := by decide

theorem allDigits_octets (bytes : List UInt8) :
    ∀ p ∈ bytes.map fun b => numeralText 10 b.toNat, AllDigits p := by
  intro p hp
  obtain ⟨b, -, rfl⟩ := List.mem_map.mp hp
  exact allDigits_numeralText _

theorem zInetAton_quadText {bytes : List UInt8} (hne : bytes ≠ []) (hfour : bytes.length ≤ 4)
    (rest : List UInt8) :
    zInetAton (quadText bytes ++ 0 :: rest) = some (BitVec.ofNat 32 (leValue bytes)) := by
  have hvalues : (bytes.map fun b => numeralText 10 b.toNat).map decimalValue =
      bytes.map UInt8.toNat := by
    rw [List.map_map]
    exact List.map_congr_left fun b _ => decimalValue_numeralText _
  rw [quadText, zInetAton_parts (by simpa using hne) (allDigits_octets bytes)
    (by simpa using hfour) nul_ends.1 nul_ends.2, if_neg (by simp), hvalues, addressValue_bytes]

theorem octets_split (a : BitVec 32) : ∃ b0 b1 b2 b3, octets a = [b0, b1, b2, b3] :=
  ⟨_, _, _, _, rfl⟩

theorem leValue_octets (a : BitVec 32) : BitVec.ofNat 32 (leValue (octets a)) = a := by
  have hlt : a.toNat < 256 ^ 4 := a.isLt
  rw [octets, leValue_leBytes, Nat.mod_eq_of_lt hlt, BitVec.ofNat_toNat, BitVec.setWidth_eq]

theorem nul_not_mem_quadText (bytes : List UInt8) : 0 ∉ quadText bytes :=
  dotted_not_mem nul_ends.1 nul_ends.2 (allDigits_octets bytes)

theorem load_string {m : Memory} {p n : ℕ} {t : List UInt8} (h : CStringAt m p t)
    (hn : t.length < n) : ∃ rest, load m p n = t ++ 0 :: rest := by
  obtain ⟨k, rfl⟩ := Nat.exists_eq_add_of_lt hn
  refine ⟨load m (p + (t.length + 1)) k, ?_⟩
  rw [Nat.add_right_comm, load_add, h.bytes, List.append_assoc, List.singleton_append]

theorem aton_ntoa (above : List UInt8) (m : Memory) {buffer : BitVec 64}
    (hroom : buffer.toNat + bufferSize ≤ 2 ^ 64) (a : BitVec 32) :
    ∃ m', zInetNtoa above m buffer a = some (m', buffer) ∧
      CStringAt m' buffer.toNat (quadText (octets a)) ∧
      zInetAton (load m' buffer.toNat bufferSize) = some a := by
  have hsize : bufferSize = 128 := rfl
  have hback := leValue_octets a
  obtain ⟨b0, b1, b2, b3, hbytes⟩ := octets_split a
  rw [hbytes] at hback ⊢
  have hlen := length_quadText b0 b1 b2 b3
  have hprint := zSprintf_quad above
    (o := ⟨store m buffer.toNat (List.replicate bufferSize 0), buffer⟩) b0 b1 b2 b3
    (show buffer.toNat + 15 < 2 ^ 64 by omega)
  have hzero : store m buffer.toNat (List.replicate bufferSize 0)
      (buffer.toNat + (quadText [b0, b1, b2, b3]).length) = 0 := by
    rw [store_inside (by rw [List.length_replicate]; omega)]
    exact List.getElem_replicate _
  have hstring := cStringAt_stored (nul_not_mem_quadText [b0, b1, b2, b3]) hzero
  obtain ⟨rest, hrest⟩ := load_string hstring (show _ < bufferSize by omega)
  refine ⟨_, ?_, hstring, ?_⟩
  · rw [zInetNtoa, hbytes, hprint]
    rfl
  · rw [hrest, zInetAton_quadText (by simp) (by simp), hback]

/-- 123.207.6.123 -/
theorem aton_ntoa_example :
    ∃ m', zInetNtoa [] (fun _ => 1) 4096 0x7b06cf7b = some (m', 4096) ∧
      CStringAt m' (4096 : BitVec 64).toNat (quadText (octets 0x7b06cf7b)) ∧
      zInetAton (load m' (4096 : BitVec 64).toNat bufferSize) = some 0x7b06cf7b :=
  aton_ntoa [] (fun _ => 1) (by decide) 0x7b06cf7b

end InetAddress

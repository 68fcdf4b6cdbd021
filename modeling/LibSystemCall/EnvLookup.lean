import LibSystemCall.ByteMemory

/-! # z_getenv and z_simple_getenv

`z_findenv` compares characters, `z_simple_getenv` lengths and a block. `z_memcmp` counts words
of four bytes, so the block of a name that is not empty goes on behind it. Lengths are `int`s. -/
namespace EnvLookup

open ByteMemory

def eqSign : UInt8 := 0x3d

/-- How far a loop gets that stops at certain bytes; none when the fuel runs out. -/
def runLength (m : Memory) (stop : UInt8 → Bool) : ℕ → ℕ → Option ℕ
  | 0, _ => none
  | fuel + 1, a => if stop (m a) then some 0 else (runLength m stop fuel (a + 1)).map (· + 1)

def zStrlen (m : Memory) (fuel s : ℕ) : Option (BitVec 32) :=
  (runLength m (fun c => c = 0) fuel s).map (BitVec.ofNat 32)

def memcmpLoop (m : Memory) : ℕ → ℕ → ℕ → BitVec 32
  | 0, _, _ => 0
  | n + 1, p1, p2 =>
    if loadWord 32 m p1 ≠ loadWord 32 m p2 then loadWord 32 m p1 - loadWord 32 m p2
    else memcmpLoop m n (p1 + 4) (p2 + 4)

def zMemcmp (m : Memory) (s1 s2 : ℕ) (n : BitVec 32) : BitVec 32 :=
  if n ≠ 0 then memcmpLoop m n.toNat s1 s2 else 0

/-- `i` and `cp` behind the loop over the characters of an entry. -/
def matchName (m : Memory) : ℕ → ℕ → ℕ → ℕ × ℕ
  | 0, cp, _ => (0, cp)
  | i + 1, cp, np =>
    if m cp = 0 then (i + 1, cp)
    else if m cp ≠ m np then (i + 1, cp + 1)
    else matchName m i (cp + 1) (np + 1)

def findenvLoop (m : Memory) (name len : ℕ) : ℕ → List ℕ → Option (ℕ × ℕ)
  | _, [] => none
  | k, p :: ps =>
    let (i, cp) := matchName m len p name
    if i = 0 ∧ m cp = eqSign then some (cp + 1, k) else findenvLoop m name len (k + 1) ps

/-- `none` is the null pointer, for the arguments and inside the result. -/
def zFindenv (m : Memory) (fuel : ℕ) (name : Option ℕ) (environ : Option (List ℕ)) :
    Option (Option (ℕ × ℕ)) :=
  match name, environ with
  | some name, some environ =>
    (runLength m (fun c => c = 0 ∨ c = eqSign) fuel name).map fun len =>
      findenvLoop m name len 0 environ
  | _, _ => some none

def zGetenv (m : Memory) (fuel : ℕ) (name : Option ℕ) (environ : Option (List ℕ)) :
    Option (Option ℕ) :=
  (zFindenv m fuel name environ).map (Option.map Prod.fst)

def index (p : ℕ) (i : BitVec 32) : ℕ := ((p : ℤ) + i.toInt).toNat

def simpleGetenvLoop (m : Memory) (fuel var : ℕ) (varLen : BitVec 32) :
    List ℕ → Option (Option ℕ)
  | [] => some none
  | p :: ps =>
    (zStrlen m fuel p).bind fun pLen =>
      if varLen.sle pLen ∧ zMemcmp m p var varLen = 0 ∧ m (index p varLen) = eqSign then
        some (some (index p (varLen + 1)))
      else simpleGetenvLoop m fuel var varLen ps

def zSimpleGetenv (m : Memory) (fuel : ℕ) (envp : Option (List ℕ)) (var : ℕ) :
    Option (Option ℕ) :=
  (zStrlen m fuel var).bind fun varLen =>
    simpleGetenvLoop m fuel var varLen (envp.getD [])

structure EnvString (m : Memory) where
  addr : ℕ
  text : List UInt8
  held : CStringAt m addr text

variable {m : Memory}

def EnvString.length (e : EnvString m) : BitVec 32 := BitVec.ofNat 32 e.text.length

def EnvString.Defines (e : EnvString m) (name : List UInt8) : Prop := name ++ [eqSign] <+: e.text

instance (e : EnvString m) (name : List UInt8) : Decidable (e.Defines name) :=
  inferInstanceAs (Decidable (_ <+: _))

def lookup (name : List UInt8) (env : List (EnvString m)) : Option ℕ :=
  (env.find? fun e => e.Defines name).map fun e => e.addr + name.length + 1

theorem runLength_text {stop : UInt8 → Bool} (hnul : stop 0 = true) {fuel a : ℕ}
    {s : List UInt8} (h : CStringAt m a s) (hs : ∀ c ∈ s, stop c = false)
    (hf : s.length < fuel) : runLength m stop fuel a = some s.length := by
  induction s generalizing fuel a with
  | nil =>
    obtain ⟨fuel, rfl⟩ := Nat.exists_eq_add_of_lt hf
    rw [runLength, cStringAt_nil.mp h, if_pos hnul]
    rfl
  | cons b s ih =>
    obtain ⟨hb, -, htail⟩ := cStringAt_cons.mp h
    obtain ⟨fuel, rfl⟩ := Nat.exists_eq_succ_of_ne_zero (Nat.ne_of_gt (Nat.zero_lt_of_lt hf))
    rw [runLength, hb, hs b List.mem_cons_self]
    rw [List.length_cons, Nat.succ_lt_succ_iff] at hf
    rw [ih htail (fun c hc => hs c (List.mem_cons_of_mem b hc)) hf]
    rfl

theorem zStrlen_text {fuel : ℕ} (e : EnvString m) (hf : e.text.length < fuel) :
    zStrlen m fuel e.addr = some e.length := by
  have hs : ∀ c ∈ e.text, decide (c = 0) = false := by
    rintro c hc
    rw [decide_eq_false_iff_not]
    rintro rfl
    exact e.held.noNul hc
  rw [zStrlen, runLength_text (by decide) e.held hs hf]
  rfl

theorem eqSign_prefix {a : ℕ} {t : List UInt8} (h : CStringAt m a t) :
    m a = eqSign ↔ [eqSign] <+: t := by
  cases t with
  | nil =>
    rw [cStringAt_nil.mp h]
    exact iff_of_false (by decide) (by simp)
  | cons d t =>
    obtain ⟨hd, -, -⟩ := cStringAt_cons.mp h
    rw [hd, List.cons_prefix_cons]
    simp [eq_comm]

/-- The loop comes to the end of the name, and finds `=` there, in the entries that define it. -/
theorem matchName_defines {n t : List UInt8} {np cp : ℕ} (hn : CStringAt m np n)
    (ht : CStringAt m cp t) :
    ((matchName m n.length cp np).1 = 0 ∧ m (matchName m n.length cp np).2 = eqSign ↔
      n ++ [eqSign] <+: t) ∧
      ((matchName m n.length cp np).1 = 0 → (matchName m n.length cp np).2 = cp + n.length) := by
  induction n generalizing t np cp with
  | nil => exact ⟨by simpa [matchName] using eqSign_prefix ht, fun _ => rfl⟩
  | cons c n ih =>
    obtain ⟨hc, -, hn⟩ := cStringAt_cons.mp hn
    rw [List.length_cons, matchName]
    cases t with
    | nil =>
      rw [if_pos (cStringAt_nil.mp ht)]
      simp
    | cons d t =>
      obtain ⟨hd, hne, ht⟩ := cStringAt_cons.mp ht
      rw [hd, hc, if_neg hne, List.cons_append, List.cons_prefix_cons]
      by_cases hdc : d = c
      · obtain ⟨hdef, hend⟩ := ih hn ht
        rw [if_neg (not_not_intro hdc), hdef]
        refine ⟨⟨fun h => ⟨hdc.symm, h⟩, And.right⟩, fun h => ?_⟩
        rw [hend h]
        omega
      · rw [if_pos hdc]
        exact ⟨iff_of_false (by simp) fun h => hdc h.1.symm, by simp⟩

theorem findenvLoop_lookup (name : EnvString m) (env : List (EnvString m)) (k : ℕ) :
    (findenvLoop m name.addr name.text.length k (env.map EnvString.addr)).map Prod.fst =
      lookup name.text env := by
  induction env generalizing k with
  | nil => rfl
  | cons e env ih =>
    obtain ⟨hdef, hend⟩ := matchName_defines name.held e.held
    rw [List.map_cons, findenvLoop, lookup]
    dsimp only
    by_cases h : e.Defines name.text
    · have hmatch := hdef.mpr h
      rw [if_pos hmatch, hend hmatch.1, List.find?_cons_of_pos (by simpa using h)]
      rfl
    · rw [if_neg (mt hdef.mp h), ih, List.find?_cons_of_neg (by simpa using h)]
      rfl

theorem zGetenv_lookup {fuel : ℕ} (name : EnvString m) (hname : eqSign ∉ name.text)
    (env : List (EnvString m)) (hf : name.text.length < fuel) :
    zGetenv m fuel (some name.addr) (some (env.map EnvString.addr)) =
      some (lookup name.text env) := by
  have hs : ∀ c ∈ name.text, decide (c = 0 ∨ c = eqSign) = false := by
    intro c hc
    rw [decide_eq_false_iff_not]
    rintro (rfl | rfl)
    · exact name.held.noNul hc
    · exact hname hc
  have hlen := runLength_text (by decide) name.held hs hf
  rw [zGetenv, zFindenv, hlen, Option.map_some, Option.map_some, findenvLoop_lookup]

theorem byte_of_loadWord {a b : ℕ} (h : loadWord 32 m a = loadWord 32 m b) :
    ∀ i < 4, m (a + i) = m (b + i) := load_inj (load_eq_of_loadWord_eq (w := 32) rfl h)

/-- A block that compares equal is equal in four times as many bytes. -/
theorem memcmpLoop_zero {n p1 p2 : ℕ} (h : memcmpLoop m n p1 p2 = 0) :
    ∀ i < 4 * n, m (p1 + i) = m (p2 + i) := by
  induction n generalizing p1 p2 with
  | zero =>
    intro i hi
    omega
  | succ n ih =>
    rw [memcmpLoop] at h
    split at h
    · next hne => exact absurd (by simpa using BitVec.sub_eq_iff_eq_add.mp h) hne
    · next heq =>
      intro i hi
      by_cases h4 : i < 4
      · exact byte_of_loadWord (not_not.mp heq) i h4
      · have hrest := ih h (i - 4) (by omega)
        rw [Nat.add_assoc, Nat.add_assoc] at hrest
        rwa [show 4 + (i - 4) = i by omega] at hrest

theorem ne_eqSign {a : ℕ} {t : List UInt8} (h : CStringAt m a t) (ht : eqSign ∉ t) :
    ∀ i ≤ t.length, m (a + i) ≠ eqSign := by
  induction t generalizing a with
  | nil =>
    intro i hi
    obtain rfl : i = 0 := Nat.le_zero.mp hi
    rw [Nat.add_zero, cStringAt_nil.mp h]
    decide
  | cons d t ih =>
    obtain ⟨hd, -, htail⟩ := cStringAt_cons.mp h
    rw [List.mem_cons, not_or] at ht
    intro i hi
    cases i with
    | zero =>
      rw [Nat.add_zero, hd]
      exact Ne.symm ht.1
    | succ i =>
      have hrest := ih htail ht.2 i (Nat.le_of_succ_le_succ hi)
      rwa [Nat.add_assoc, Nat.add_comm 1] at hrest

/-- The block of a name reaches its NUL, or a character before that, and no `=` is there. -/
theorem zMemcmp_eqSign {name : EnvString m} (hname : eqSign ∉ name.text)
    (hpos : 0 < name.length.toInt) {p : ℕ} (h : zMemcmp m p name.addr name.length = 0) :
    m (index p name.length) ≠ eqSign := by
  have hlen : name.length.toInt = name.length.toNat ∧ name.length.toNat ≤ name.text.length := by
    have hle : name.length.toNat ≤ name.text.length := by
      rw [EnvString.length, BitVec.toNat_ofNat]
      exact Nat.mod_le _ _
    refine ⟨?_, hle⟩
    rw [BitVec.toInt_eq_toNat_cond] at hpos ⊢
    have hlt := name.length.isLt
    split <;> omega
  have hne : name.length ≠ 0 := by
    intro h0
    rw [h0] at hpos
    exact absurd hpos (by decide)
  rw [zMemcmp, if_pos hne] at h
  have hbyte := memcmpLoop_zero h name.length.toNat (by omega)
  have hindex : index p name.length = p + name.length.toNat := by
    unfold index
    omega
  rw [hindex, hbyte]
  exact ne_eqSign name.held hname _ hlen.2

theorem simpleGetenvLoop_none {fuel : ℕ} {name : EnvString m} (hname : eqSign ∉ name.text)
    (hpos : 0 < name.length.toInt) {env : List (EnvString m)}
    (hf : ∀ e ∈ env, e.text.length < fuel) :
    simpleGetenvLoop m fuel name.addr name.length (env.map EnvString.addr) = some none := by
  induction env with
  | nil => rfl
  | cons e env ih =>
    rw [List.map_cons, simpleGetenvLoop, zStrlen_text e (hf e List.mem_cons_self),
      Option.bind_some, if_neg fun h => zMemcmp_eqSign hname hpos h.2.1 h.2.2]
    exact ih fun e he => hf e (List.mem_cons_of_mem _ he)

theorem simpleGetenvLoop_empty {fuel : ℕ} (var : ℕ) {env : List (EnvString m)}
    (hf : ∀ e ∈ env, e.text.length < fuel) :
    simpleGetenvLoop m fuel var 0 (env.map EnvString.addr) =
      some ((env.find? fun e => 0 ≤ e.length.toInt ∧ e.Defines []).map fun e => e.addr + 1) := by
  induction env with
  | nil => rfl
  | cons e env ih =>
    have hindex : index e.addr 0 = e.addr ∧ index e.addr (0 + 1) = e.addr + 1 :=
      ⟨by simp [index], rfl⟩
    have htest : ((0 : BitVec 32).sle e.length ∧ zMemcmp m e.addr var 0 = 0 ∧
        m (index e.addr 0) = eqSign) ↔ 0 ≤ e.length.toInt ∧ e.Defines [] := by
      rw [hindex.1, eqSign_prefix e.held, BitVec.sle_iff_toInt_le]
      exact and_congr Iff.rfl (and_iff_right rfl)
    have hrest := ih fun e he => hf e (List.mem_cons_of_mem _ he)
    rw [List.map_cons, simpleGetenvLoop, zStrlen_text e (hf e List.mem_cons_self),
      Option.bind_some]
    by_cases h : 0 ≤ e.length.toInt ∧ e.Defines []
    · rw [if_pos (htest.mpr h), hindex.2, List.find?_cons_of_pos (by simpa using h)]
      rfl
    · rw [if_neg (mt htest.mp h), hrest, List.find?_cons_of_neg (by simpa using h)]

theorem zSimpleGetenv_eq {fuel : ℕ} (name : EnvString m) (env : List (EnvString m))
    (hf : name.text.length < fuel) :
    zSimpleGetenv m fuel (some (env.map EnvString.addr)) name.addr =
      simpleGetenvLoop m fuel name.addr name.length (env.map EnvString.addr) := by
  rw [zSimpleGetenv, zStrlen_text name hf]
  rfl

/-- Both return the value in the first entry that defines the name, or null. -/
def Agree (name : EnvString m) (env : List (EnvString m)) : Prop :=
  ∀ fuel, (∀ e ∈ name :: env, e.text.length < fuel) →
    zSimpleGetenv m fuel (some (env.map EnvString.addr)) name.addr = some (lookup name.text env) ∧
      zGetenv m fuel (some name.addr) (some (env.map EnvString.addr)) =
        some (lookup name.text env)

theorem enough_fuel (strings : List (EnvString m)) :
    ∃ fuel, ∀ e ∈ strings, e.text.length < fuel := by
  induction strings with
  | nil => exact ⟨0, by simp⟩
  | cons e strings ih =>
    obtain ⟨fuel, hf⟩ := ih
    refine ⟨fuel + e.text.length + 1, fun d hd => ?_⟩
    rcases List.mem_cons.mp hd with rfl | hd
    · omega
    · have := hf d hd
      omega

theorem agree_of_simple {name : EnvString m} (hname : eqSign ∉ name.text)
    {env : List (EnvString m)} :
    Agree name env ↔ ∀ fuel, (∀ e ∈ name :: env, e.text.length < fuel) →
      simpleGetenvLoop m fuel name.addr name.length (env.map EnvString.addr) =
        some (lookup name.text env) := by
  refine forall_congr' fun fuel => forall_congr' fun hf => ?_
  have hlen := hf name List.mem_cons_self
  rw [zSimpleGetenv_eq name env hlen, zGetenv_lookup name hname env hlen]
  exact and_iff_left rfl

theorem agree_iff_none {name : EnvString m} (hname : eqSign ∉ name.text)
    (hpos : 0 < name.length.toInt) (env : List (EnvString m)) :
    Agree name env ↔ env.find? (fun e => e.Defines name.text) = none := by
  have hloop : ∀ fuel, (∀ e ∈ name :: env, e.text.length < fuel) →
      simpleGetenvLoop m fuel name.addr name.length (env.map EnvString.addr) = some none :=
    fun fuel hf => simpleGetenvLoop_none hname hpos fun e he => hf e (List.mem_cons_of_mem _ he)
  rw [agree_of_simple hname]
  constructor
  · intro h
    obtain ⟨fuel, hf⟩ := enough_fuel (name :: env)
    have hnone := (hloop fuel hf).symm.trans (h fuel hf)
    exact Option.map_eq_none_iff.mp (Option.some.inj hnone).symm
  · intro h fuel hf
    rw [hloop fuel hf, lookup, h]
    rfl

theorem find?_and {α : Type*} {p q : α → Prop} [DecidablePred p] [DecidablePred q] {l : List α}
    (h : ∀ a, l.find? (fun a => q a) = some a → p a) :
    l.find? (fun a => p a ∧ q a) = l.find? fun a => q a := by
  induction l with
  | nil => rfl
  | cons a l ih =>
    by_cases hq : q a
    · have hp := h a (List.find?_cons_of_pos (by simpa using hq))
      rw [List.find?_cons_of_pos (by simp [hp, hq]), List.find?_cons_of_pos (by simpa using hq)]
    · have hskip : (a :: l).find? (fun a => q a) = l.find? fun a => q a :=
        List.find?_cons_of_neg (by simpa using hq)
      rw [hskip] at h ⊢
      rw [List.find?_cons_of_neg (by simp [hq]), ih h]

theorem length_unique {e d : EnvString m} (h : e.addr = d.addr) : e.length = d.length := by
  have htext : e.text = d.text := CStringAt.unique e.held (h ▸ d.held)
  rw [EnvString.length, EnvString.length, htext]

theorem agree_iff_empty {name : EnvString m} (hempty : name.text = [])
    (env : List (EnvString m)) :
    Agree name env ↔
      ∀ e, env.find? (fun e => e.Defines []) = some e → 0 ≤ e.length.toInt := by
  have hname : eqSign ∉ name.text := by simp [hempty]
  have hzero : name.length = 0 := by simp [EnvString.length, hempty]
  have hloop : ∀ fuel, (∀ e ∈ name :: env, e.text.length < fuel) →
      simpleGetenvLoop m fuel name.addr name.length (env.map EnvString.addr) =
        some ((env.find? fun e => 0 ≤ e.length.toInt ∧ e.Defines []).map fun e => e.addr + 1) := by
    intro fuel hf
    rw [hzero]
    exact simpleGetenvLoop_empty name.addr fun e he => hf e (List.mem_cons_of_mem _ he)
  rw [agree_of_simple hname]
  constructor
  · intro h e he
    obtain ⟨fuel, hf⟩ := enough_fuel (name :: env)
    have hsame := Option.some.inj ((hloop fuel hf).symm.trans (h fuel hf))
    rw [hempty, lookup, he, Option.map_some] at hsame
    obtain ⟨d, hd, haddr⟩ := Option.map_eq_some_iff.mp hsame
    have hfits := List.find?_some hd
    rw [decide_eq_true_eq, length_unique (show d.addr = e.addr by simpa using haddr)] at hfits
    exact hfits.1
  · intro h fuel hf
    rw [hloop fuel hf, hempty, lookup, find?_and h]
    rfl

/-- Whether a lookup that counts in words and `int`s finds what the other one does. -/
theorem agree_iff {name : EnvString m} (hname : eqSign ∉ name.text)
    (hlen : name.text = [] ∨ 0 < name.length.toInt) (env : List (EnvString m)) :
    Agree name env ↔ ∀ e, env.find? (fun e => e.Defines name.text) = some e →
      name.text = [] ∧ 0 ≤ e.length.toInt := by
  rcases hlen with hempty | hpos
  · rw [agree_iff_empty hempty, hempty]
    simp only [true_and]
  · have hne : name.text ≠ [] := by
      intro hempty
      rw [EnvString.length, hempty] at hpos
      exact absurd hpos (by decide)
    rw [agree_iff_none hname hpos, Option.eq_none_iff_forall_ne_some]
    simp only [hne, false_and, imp_false]

def threeStrings : Memory :=
  store (store (store (fun _ => 0) 16 [0x41]) 32 [0x41, eqSign, 0x31]) 48 [0x41, 0x42, eqSign, 0x32]

def nameA : EnvString threeStrings := ⟨16, [0x41], by decide, by decide⟩

def entryA : EnvString threeStrings := ⟨32, [0x41, eqSign, 0x31], by decide, by decide⟩

def entryAB : EnvString threeStrings := ⟨48, [0x41, 0x42, eqSign, 0x32], by decide, by decide⟩

/-- The value is at 34, and `z_simple_getenv` finds nothing. -/
theorem simple_misses_A : ¬ Agree nameA [entryA] := by
  intro h
  have hboth := h 8 (by simp [nameA, entryA])
  revert hboth
  decide

/-- The name goes on in the entry. -/
theorem agree_AB : Agree nameA [entryAB] :=
  (agree_iff (by decide) (.inr (by decide)) [entryAB]).mpr fun e he => by
    rw [List.find?_cons_of_neg (by decide)] at he
    cases he

end EnvLookup

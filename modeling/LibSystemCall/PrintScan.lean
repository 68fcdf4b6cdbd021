import LibSystemCall.ByteScan
import LibSystemCall.PrintFormat

/-! # How far kdoprnt and z_sprintf read their format

Both are scanners over the bytes from `fmt` on. The format and the output are different
objects, so nothing that is written changes a byte of the format. -/
namespace PrintScan

open ByteMemory ByteScan PrintBuffer PrintFormat

structure KdoprntState where
  place : Place
  ap : List VaArg
  out : PrintState

def kdoprntTurn (fd : ℤ) (s : KdoprntState) (ch : UInt8) : Turn KdoprntState :=
  match s.place with
  | .literal =>
    if ch = '%'.toUInt8 then .next { s with place := .directive false }
    else if ch = 0 then .done s
    else .next { s with out := putcharfd s.out fd ch }
  | .directive lflag =>
    if ch = 'l'.toUInt8 then .next { s with place := .directive true }
    else
      match convert s.out fd lflag ch s.ap with
      | none => .stuck
      | some r => .next ⟨.literal, r.2, r.1⟩

def kdoprntStart (s : PrintState) (ap : List VaArg) : KdoprntState :=
  ⟨.literal, ap, { s with outptr := 0 }⟩

theorem scan_eq_consume (fd : ℤ) (place : Place) (fmt : List UInt8) (ap : List VaArg)
    (s : PrintState) :
    PrintFormat.scan fd place fmt ap s =
      (consume (kdoprntTurn fd) fmt ⟨place, ap, s⟩).map KdoprntState.out := by
  induction fmt generalizing place ap s with
  | nil => cases place <;> rfl
  | cons ch fmt ih =>
    rw [consume]
    cases place with
    | literal =>
      rw [PrintFormat.scan, kdoprntTurn]
      by_cases hpercent : ch = '%'.toUInt8
      · simp only [if_pos hpercent, ih]
      by_cases hnul : ch = 0
      · simp only [if_neg hpercent, if_pos hnul, Option.map_some]
      · simp only [if_neg hpercent, if_neg hnul, ih]
    | directive lflag =>
      rw [PrintFormat.scan, kdoprntTurn]
      by_cases hl : ch = 'l'.toUInt8
      · simp only [if_pos hl, ih]
      · simp only [if_neg hl]
        rcases convert s fd lflag ch ap with _ | r
        · rfl
        · simp only [Option.bind_some, ih]

/-- The scanner does what `kdoprnt` does on the bytes of the format. -/
theorem kdoprnt_eq_consume (s : PrintState) (fd : ℤ) (fmt : List UInt8) (ap : List VaArg) :
    kdoprnt s fd fmt ap =
      (consume (kdoprntTurn fd) fmt (kdoprntStart s ap)).map KdoprntState.out := by
  rw [kdoprnt, scan_eq_consume]
  rfl

theorem consume_kdoprnt_isSome {f : List UInt8} {ap : List VaArg} (hf : 0 ∉ f)
    (hap : Matching (conversions .literal f) ap) (s : PrintState) (fd : ℤ) :
    (consume (kdoprntTurn fd) (f ++ [0]) (kdoprntStart s ap)).isSome ↔
      endsInsideDirective .literal f = false := by
  have h := formattedFrom_isSome .literal f ap hf
  rw [← Option.isSome_map (f := KdoprntState.out), ← kdoprnt_eq_consume, kdoprnt_eq,
    Option.isSome_map]
  exact h.trans (and_iff_left hap)

/-- The digits of `z_itoa` and `z_xtoa`: the recursive call writes all but the last one. -/
def toa (base : ℕ) (hbase : 1 < base) (n : ℕ) : List UInt8 :=
  if n < base then [digitChar n]
  else toa base hbase (n / base) ++ [digitChar (n % base)]
termination_by n
decreasing_by exact Nat.div_lt_self (by omega) hbase

def zItoa (n : BitVec 32) : List UInt8 := toa 10 (by decide) n.toNat

def zXtoa (n : BitVec 32) : List UInt8 := toa 16 (by decide) n.toNat

def zIsdigit (c : UInt8) : Bool := '0'.toUInt8 ≤ c && c ≤ '9'.toUInt8

/-- `z_atoi` on the bytes of a C string; the arithmetic wraps. -/
def zAtoi (pstr : List UInt8) : BitVec 32 :=
  let pstr := pstr.dropWhile fun c =>
    c = ' '.toUInt8 || c = '\n'.toUInt8 || c = '\t'.toUInt8 || c = 8
  let sign : BitVec 32 := if pstr.head? = some '-'.toUInt8 then -1 else 1
  let pstr := if pstr.head? = some '-'.toUInt8 ∨ pstr.head? = some '+'.toUInt8 then pstr.tail
    else pstr
  sign * (pstr.takeWhile zIsdigit).foldl
    (fun ret c => ret * 10 + BitVec.ofNat 32 c.toNat - BitVec.ofNat 32 48) 0

def zStrlen (s : List UInt8) : BitVec 32 := BitVec.ofNat 32 s.length

structure Output where
  mem : Memory
  str : BitVec 64

/-- `z_memcpy(str, bs, n)` or `z_memset`, then `str += n`. The end of a block of negative
length wraps to below its start, and its loop writes nothing. -/
def Output.put (o : Output) (bs : List UInt8) (n : BitVec 32) : Output where
  mem := if n.toInt < 0 then o.mem else store o.mem o.str.toNat (bs.take n.toNat)
  str := o.str + n.signExtend 64

def Output.putText (o : Output) (s : List UInt8) : Output := o.put s (zStrlen s)

def Output.putPadded (num : BitVec 32) (o : Output) (s : List UInt8) : Output :=
  let len := zStrlen s
  if len.toInt ≥ num.toInt then o.putText s
  else (o.put (List.replicate (num - len).toNat '0'.toUInt8) (num - len)).putText s

/-- The directives with and without a width. `put` writes the text of the argument. -/
def putArg (put : Output → List UInt8 → Output) (o : Output) (ch : UInt8) (ap : List VaArg) :
    Option (Output × List VaArg) :=
  if ch = 'd'.toUInt8 then
    match ap with
    | [] => none
    | a :: ap =>
      let n := a.word.setWidth 32
      if n.toInt < 0 then some (put (o.put ['-'.toUInt8] 1) (zItoa (-n)), ap)
      else some (put o (zItoa n), ap)
  else if ch = 'x'.toUInt8 then
    match ap with
    | [] => none
    | a :: ap => some (put o (zXtoa (a.word.setWidth 32)), ap)
  else if ch = 's'.toUInt8 then
    match ap with
    | [] => none
    | a :: ap => (cString a.target).map fun s => (put o s, ap)
  else some (o, ap)

def putPlain (o : Output) (ch : UInt8) (ap : List VaArg) : Option (Output × List VaArg) :=
  if ch = 'c'.toUInt8 then
    match ap with
    | [] => none
    | a :: ap => some (o.put [UInt8.ofBitVec (a.word.setWidth 8)] 1, ap)
  else if ch = '%'.toUInt8 then some (o.put ['%'.toUInt8] 1, ap)
  else putArg Output.putText o ch ap

/-- Where `fmt` points: to a byte between directives, behind a `%`, or behind `%0` and the
digits stored so far. -/
inductive Spot where
  | literal
  | percent
  | width (digit : List UInt8)

structure SprintfState where
  spot : Spot
  ap : List VaArg
  out : Output

def digitSize : ℕ := 16

/-- The string at `digit`. When no zero is left in the array it goes on in the bytes above,
up to their first NUL (a return address has one). -/
def digitString (above digit : List UInt8) : List UInt8 :=
  if digit.length < digitSize then digit else digit ++ above

def nextDirective (r : Option (Output × List VaArg)) : Turn SprintfState :=
  match r with
  | none => .stuck
  | some r => .next ⟨.literal, r.2, r.1⟩

/-- `above` are the bytes of the stack above `digit`. -/
def sprintfTurn (above : List UInt8) (s : SprintfState) (ch : UInt8) : Turn SprintfState :=
  match s.spot with
  | .literal =>
    if ch = 0 then .done s
    else if ch = '%'.toUInt8 then .next { s with spot := .percent }
    else .next { s with out := s.out.put [ch] 1 }
  | .percent =>
    -- a NUL takes the default case, and the fmt++ that ends the round goes past it
    if ch = '0'.toUInt8 then .next { s with spot := .width [] }
    else nextDirective (putPlain s.out ch s.ap)
  | .width digit =>
    if zIsdigit ch then
      if digit.length < digitSize then .next { s with spot := .width (digit ++ [ch]) }
      else .stuck
    else nextDirective (putArg (Output.putPadded (zAtoi (digitString above digit))) s.out ch s.ap)

def Spot.after : Spot → UInt8 → Spot
  | literal, ch => if ch = '%'.toUInt8 then percent else literal
  | percent, ch => if ch = '0'.toUInt8 then width [] else literal
  | width digit, ch => if zIsdigit ch then width (digit ++ [ch]) else literal

def argConversion (ch : UInt8) : Option Conversion :=
  if ch = 'd'.toUInt8 then some .decimal
  else if ch = 'x'.toUInt8 then some .hexadecimal
  else if ch = 's'.toUInt8 then some .string
  else none

def Spot.conversion : Spot → UInt8 → Option Conversion
  | literal, _ => none
  | percent, ch => if ch = 'c'.toUInt8 then some .character else argConversion ch
  | width _, ch => argConversion ch

def Spot.Fits : Spot → Prop
  | width digit => digit.length ≤ digitSize
  | _ => True

def sprintfConversions : Spot → List UInt8 → List Conversion
  | _, [] => []
  | spot, ch :: f => (spot.conversion ch).toList ++ sprintfConversions (spot.after ch) f

/-- No width has more digits than the array. -/
def WidthsFit : Spot → List UInt8 → Prop
  | _, [] => True
  | spot, ch :: f => (spot.after ch).Fits ∧ WidthsFit (spot.after ch) f

def endsInsideWidth : Spot → List UInt8 → Bool
  | .literal, [] => false
  | .percent, [] => true
  | .width _, [] => true
  | spot, ch :: f => endsInsideWidth (spot.after ch) f

theorem putArg_matching (put : Output → List UInt8 → Output) (o : Output) (ch : UInt8)
    {ap : List VaArg} {cs : List Conversion}
    (h : Matching ((argConversion ch).toList ++ cs) ap) :
    ∃ r, putArg put o ch ap = some r ∧ Matching cs r.2 := by
  unfold argConversion at h
  unfold putArg
  by_cases hd : ch = 'd'.toUInt8
  · simp only [if_pos hd, Option.toList_some, List.singleton_append] at h ⊢
    rcases ap with _ | ⟨a, ap⟩
    · exact absurd h (by simp [Matching])
    · simp only [← apply_ite some]
      refine ⟨_, rfl, ?_⟩
      split <;> exact h.2
  by_cases hx : ch = 'x'.toUInt8
  · simp only [if_neg hd, if_pos hx, Option.toList_some, List.singleton_append] at h ⊢
    rcases ap with _ | ⟨a, ap⟩
    · exact absurd h (by simp [Matching])
    · exact ⟨_, rfl, h.2⟩
  by_cases hs : ch = 's'.toUInt8
  · simp only [if_neg hd, if_neg hx, if_pos hs, Option.toList_some, List.singleton_append] at h ⊢
    rcases ap with _ | ⟨a, ap⟩
    · exact absurd h (by simp [Matching])
    · simp only [cString, if_pos (h.1 rfl), Option.map_some]
      exact ⟨_, rfl, h.2⟩
  · simp only [if_neg hd, if_neg hx, if_neg hs] at h ⊢
    exact ⟨_, rfl, h⟩

theorem putPlain_matching (o : Output) (ch : UInt8) {ap : List VaArg} {cs : List Conversion}
    (h : Matching ((Spot.percent.conversion ch).toList ++ cs) ap) :
    ∃ r, putPlain o ch ap = some r ∧ Matching cs r.2 := by
  unfold putPlain
  rw [Spot.conversion] at h
  by_cases hc : ch = 'c'.toUInt8
  · simp only [if_pos hc, Option.toList_some, List.singleton_append] at h ⊢
    rcases ap with _ | ⟨a, ap⟩
    · exact absurd h (by simp [Matching])
    · exact ⟨_, rfl, h.2⟩
  by_cases hpercent : ch = '%'.toUInt8
  · subst hpercent
    exact ⟨_, rfl, h⟩
  · simp only [if_neg hc, if_neg hpercent] at h ⊢
    exact putArg_matching _ _ _ h

theorem nextDirective_next {r : Option (Output × List VaArg)} {cs : List Conversion}
    (h : ∃ p, r = some p ∧ Matching cs p.2) :
    ∃ ap o, nextDirective r = .next ⟨.literal, ap, o⟩ ∧ Matching cs ap := by
  obtain ⟨p, rfl, hp⟩ := h
  exact ⟨p.2, p.1, rfl, hp⟩

/-- One byte of a matching format: only the NUL between directives ends the scan. -/
theorem sprintfTurn_next (above : List UInt8) {s : SprintfState} {ch : UInt8}
    {cs : List Conversion} (hnul : s.spot = .literal → ch ≠ 0) (hfit : (s.spot.after ch).Fits)
    (hap : Matching ((s.spot.conversion ch).toList ++ cs) s.ap) :
    ∃ ap o, sprintfTurn above s ch = .next ⟨s.spot.after ch, ap, o⟩ ∧ Matching cs ap := by
  obtain ⟨spot, ap, o⟩ := s
  cases spot with
  | literal =>
    rw [sprintfTurn, if_neg (hnul rfl), Spot.after]
    by_cases hpercent : ch = '%'.toUInt8
    · rw [if_pos hpercent, if_pos hpercent]
      exact ⟨_, _, rfl, hap⟩
    · rw [if_neg hpercent, if_neg hpercent]
      exact ⟨_, _, rfl, hap⟩
  | percent =>
    rw [sprintfTurn, Spot.after]
    by_cases hzero : ch = '0'.toUInt8
    · subst hzero
      exact ⟨_, _, rfl, hap⟩
    · rw [if_neg hzero, if_neg hzero]
      exact nextDirective_next (putPlain_matching o ch hap)
  | width digit =>
    simp only [Spot.after] at hfit
    simp only [sprintfTurn, Spot.after]
    by_cases hdigit : zIsdigit ch
    · have hconv : argConversion ch = none := by
        unfold argConversion
        rw [if_neg, if_neg, if_neg]
        all_goals rintro rfl; exact absurd hdigit (by decide)
      simp only [if_pos hdigit, Spot.Fits, List.length_append, List.length_singleton] at hfit ⊢
      rw [if_pos (by omega)]
      refine ⟨_, _, rfl, ?_⟩
      simpa only [Spot.conversion, hconv, Option.toList_none, List.nil_append] using hap
    · rw [if_neg hdigit, if_neg hdigit]
      exact nextDirective_next (putArg_matching _ o ch hap)

/-- Inside a directive the NUL is taken for its last byte, and the scan goes on. -/
theorem sprintfTurn_nul (above : List UInt8) {s : SprintfState} (h : s.spot ≠ .literal) :
    ∃ ap o, sprintfTurn above s 0 = .next ⟨.literal, ap, o⟩ := by
  obtain ⟨spot, ap, o⟩ := s
  cases spot with
  | literal => exact absurd rfl h
  | percent => exact ⟨_, _, rfl⟩
  | width digit => exact ⟨_, _, rfl⟩

theorem consume_sprintf_isSome (above : List UInt8) {f : List UInt8} {s : SprintfState}
    (hf : 0 ∉ f) (hap : Matching (sprintfConversions s.spot f) s.ap)
    (hfit : WidthsFit s.spot f) :
    (consume (sprintfTurn above) (f ++ [0]) s).isSome ↔ endsInsideWidth s.spot f = false := by
  induction f generalizing s with
  | nil =>
    rw [List.nil_append, consume]
    by_cases hspot : s.spot = .literal
    · simp [sprintfTurn, endsInsideWidth, hspot]
    · obtain ⟨ap, o, h⟩ := sprintfTurn_nul above hspot
      have hend : endsInsideWidth s.spot [] = true := by
        cases hs : s.spot with
        | literal => exact absurd hs hspot
        | percent => rfl
        | width digit => rfl
      simp [h, consume, hend]
  | cons ch f ih =>
    have hch : ch ≠ 0 := fun h => hf (h ▸ List.mem_cons_self)
    obtain ⟨ap, o, h, hap⟩ := sprintfTurn_next above (fun _ => hch) hfit.1 hap
    rw [List.cons_append, consume, h, endsInsideWidth]
    exact ih (fun hmem => hf (List.mem_cons_of_mem _ hmem)) hap hfit.2

/-- Neither function reads past the NUL when the arguments match the format it sees. -/
structure ReadsOnlyFormat (m : Memory) (fmt : ℕ) (f : List UInt8) (ap : List VaArg) : Prop where
  kdoprnt : Matching (conversions .literal f) ap → ∀ s fd,
    ReadsBefore (kdoprntTurn fd) m fmt (fmt + (f.length + 1)) (kdoprntStart s ap)
  sprintf : Matching (sprintfConversions .literal f) ap → WidthsFit .literal f → ∀ above out,
    ReadsBefore (sprintfTurn above) m fmt (fmt + (f.length + 1)) ⟨.literal, ap, out⟩

structure NotCutOff (f : List UInt8) (ap : List VaArg) : Prop where
  kdoprnt : Matching (conversions .literal f) ap → endsInsideDirective .literal f = false
  sprintf : Matching (sprintfConversions .literal f) ap → WidthsFit .literal f →
    endsInsideWidth .literal f = false

theorem reads_only_format_iff {m : Memory} {fmt : ℕ} {f : List UInt8} (h : CStringAt m fmt f)
    (ap : List VaArg) : ReadsOnlyFormat m fmt f ap ↔ NotCutOff f ap := by
  have hk (hap : Matching (conversions .literal f) ap) (s : PrintState) (fd : ℤ) :
      ReadsBefore (kdoprntTurn fd) m fmt (fmt + (f.length + 1)) (kdoprntStart s ap) ↔
        endsInsideDirective .literal f = false := by
    rw [readsBefore_iff, h.bytes]
    exact consume_kdoprnt_isSome h.noNul hap s fd
  have hs (hap : Matching (sprintfConversions .literal f) ap) (hfit : WidthsFit .literal f)
      (above : List UInt8) (out : Output) :
      ReadsBefore (sprintfTurn above) m fmt (fmt + (f.length + 1)) ⟨.literal, ap, out⟩ ↔
        endsInsideWidth .literal f = false := by
    rw [readsBefore_iff, h.bytes]
    exact consume_sprintf_isSome above h.noNul hap hfit
  constructor
  · intro hr
    constructor
    · intro hap
      exact (hk hap initial 0).mp (hr.kdoprnt hap _ _)
    · intro hap hfit
      exact (hs hap hfit [] ⟨m, 0⟩).mp (hr.sprintf hap hfit _ _)
  · intro hc
    constructor
    · intro hap s fd
      exact (hk hap s fd).mpr (hc.kdoprnt hap)
    · intro hap hfit above out
      exact (hs hap hfit above out).mpr (hc.sprintf hap hfit)

/-- `"%d"` with one argument. -/
theorem reads_only_format_d :
    CStringAt (store (fun _ => 0) 0 ['%'.toUInt8, 'd'.toUInt8]) 0 ['%'.toUInt8, 'd'.toUInt8] ∧
      ReadsOnlyFormat (store (fun _ => 0) 0 ['%'.toUInt8, 'd'.toUInt8]) 0
        ['%'.toUInt8, 'd'.toUInt8] [⟨7, []⟩] := by
  have h : CStringAt (store (fun _ => 0) 0 ['%'.toUInt8, 'd'.toUInt8]) 0
      ['%'.toUInt8, 'd'.toUInt8] := ⟨by decide, by decide⟩
  exact ⟨h, (reads_only_format_iff h _).mpr ⟨fun _ => by decide, fun _ _ => by decide⟩⟩

def cutOff : Memory := store (fun _ => 0) 0 ['%'.toUInt8, 0, 'a'.toUInt8]

/-- Both functions go on to the byte after the NUL of `"%"`. -/
theorem cut_off_format_overread :
    CStringAt cutOff 0 ['%'.toUInt8] ∧ ¬ ReadsOnlyFormat cutOff 0 ['%'.toUInt8] [] ∧
      (scan (kdoprntTurn 2) cutOff 4 0 (kdoprntStart initial [])).map Prod.snd = some 3 ∧
      (scan (sprintfTurn []) cutOff 4 0 ⟨.literal, [], ⟨cutOff, 0⟩⟩).map Prod.snd = some 3 := by
  refine ⟨⟨by decide, by decide⟩, ?_, by decide, by decide⟩
  intro h
  have hin := (readsBefore_iff 2).mp (h.kdoprnt trivial initial 2)
  exact absurd hin (by decide)

end PrintScan

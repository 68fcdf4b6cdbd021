import LibSystemCall.StreamPut

/-! # z_getc and z_getchar

`_read` has a state of its own, of type `ι`. The initial stream table gives `z_stdin` no buffer
and `_z_srefill1` does not make one. -/
namespace StreamGet

open ByteMemory StreamFile StreamFlush StreamPut

def SMOD : BitVec 16 := 0x2000

def EBADF : ℤ := 9

inductive ReadResult where
  | failed (errno : ℤ)
  | delivered (bytes : List UInt8)
  deriving DecidableEq

def ReadResult.bytes : ReadResult → List UInt8
  | failed _ => []
  | delivered bytes => bytes

def ReadResult.ret : ReadResult → BitVec 32
  | failed _ => -1
  | delivered bytes => BitVec.ofNat 32 bytes.length

abbrev Reader (ι : Type) := ι → BitVec 32 → ι × ReadResult

variable {ι : Type}

def zSread (read : Reader ι) (i : ι) (s : ZFile) (buf : BitVec 64) (n : BitVec 32) :
    ι × ZFile × BitVec 32 :=
  let result := (read i n).2
  let ret := result.ret
  let errno := match result with
    | .failed e => e
    | .delivered _ => s.errno
  let fp :=
    if ret.toInt > 0 then
      if s.fp.has SOFF then
        if s.fp.offset ≤ OFF_MAX - ret.toInt then { s.fp with offset := s.fp.offset + ret.toInt }
        else s.fp.clear SOFF
      else s.fp
    else if ret.toInt < 0 then s.fp.clear SOFF
    else s.fp
  let mem := store s.mem buf.toNat result.bytes
  ((read i n).1, { s with fp := fp, errno := errno, mem := mem }, ret)

/-- The flush of a line-buffered stream at the end of `_z_srefill0`. -/
def flushLines (env : Stdio → ℕ → Response) (fuel : ℕ) (s : ZFile) : Option (ZFile × ℤ) :=
  if s.fp.has (SLBF ||| SNBF) ∧ s.fp.flags &&& (SLBF ||| SWR) = SLBF ||| SWR then
    (s.sflush env fuel).map fun (s, _) => (s, 1)
  else some (s, 1)

def zSrefill0 (env : Stdio → ℕ → Response) (fuel : ℕ) (s : ZFile) : Option (ZFile × ℤ) :=
  let s := s.setR 0
  if s.fp.has SEOF then some (s, -1)
  else if s.fp.has SRD then flushLines env fuel s
  else if ¬ s.fp.has SRW then some ({ s.setFlag SERR with errno := EBADF }, -1)
  else if s.fp.has SWR then
    (s.sflush env fuel).bind fun (s, ret) =>
      if ret ≠ 0 then some (s, -1)
      else flushLines env fuel ({ (s.clearFlag SWR).setW 0 with lbfsize := 0 }.setFlag SRD)
  else flushLines env fuel (s.setFlag SRD)

/-- `_z_srefill1` once `z_sread` has returned. -/
def refilled (s : ZFile) (ret : BitVec 32) : ZFile × ℤ :=
  let s := (s.setR ret).clearFlag SMOD
  if s.fp.r.toInt ≤ 0 then
    if s.fp.r = 0 then (s.setFlag SEOF, -1) else ((s.setR 0).setFlag SERR, -1)
  else (s, 0)

def zSrefill1 (read : Reader ι) (i : ι) (s : ZFile) : ι × ZFile × ℤ :=
  let s := s.setP s.fp.base
  let got := zSread read i s s.fp.p s.fp.size
  (got.1, refilled got.2.1 got.2.2)

def zSrefill (env : Stdio → ℕ → Response) (fuel : ℕ) (read : Reader ι) (i : ι) (s : ZFile) :
    Option (ι × ZFile × ℤ) :=
  (zSrefill0 env fuel s).map fun (s, ret) => if ret ≤ 0 then (i, s, ret) else zSrefill1 read i s

/-- `*fp->_p++` -/
def takeByte (s : ZFile) : ZFile × ℤ := (s.setP (s.fp.p + 1), (s.mem s.fp.p.toNat).toNat)

def zSrget (env : Stdio → ℕ → Response) (fuel : ℕ) (read : Reader ι) (i : ι) (s : ZFile) :
    Option (ι × ZFile × ℤ) :=
  (zSrefill env fuel read i s).map fun (i, s, ret) =>
    if ret = 0 then (i, takeByte (s.setR (s.fp.r - 1))) else (i, s, -1)

def zSgetc (env : Stdio → ℕ → Response) (fuel : ℕ) (read : Reader ι) (i : ι) (s : ZFile) :
    Option (ι × ZFile × ℤ) :=
  let s := s.setR (s.fp.r - 1)
  if s.fp.r.toInt < 0 then zSrget env fuel read i s else some (i, takeByte s)

def zGetc (env : Stdio → ℕ → Response) (fuel : ℕ) (read : Reader ι) (i : ι) (s : ZFile) :
    Option (ι × ZFile × ℤ) := zSgetc env fuel read i s

/-- `_z_sF[0]` in a process with this memory. -/
def zStdin (m : Memory) (errno : ℤ) : ZFile where
  fp := ⟨0, 0, 0, SRD, 0, 0, 0, true⟩
  mem := m
  errno := errno
  turn := 0
  attempts := []
  lbfsize := 0
  output := []

def zGetchar (env : Stdio → ℕ → Response) (read : Reader ι) (i : ι) (stdin : ZFile) :
    Option (ι × ZFile × ℤ) := zSgetc env (stdin.fp.size.toNat + 1) read i stdin

def getchars (env : Stdio → ℕ → Response) (read : Reader ι) : ℕ → ι → ZFile → Option (List ℤ)
  | 0, _, _ => some []
  | n + 1, i, stdin => (zGetchar env read i stdin).bind fun (i, stdin, c) =>
    (getchars env read n i stdin).map (c :: ·)

def readFlags : BitVec 16 := SOFF ||| SMOD ||| SEOF ||| SERR

structure Refilled (result : ReadResult) (s t : ZFile) : Prop where
  file : ∃ o f, t.fp = { s.fp with
    p := s.fp.base, r := BitVec.ofNat 32 result.bytes.length, offset := o, flags := f } ∧
      ∀ q, ~~~readFlags &&& q = q → f &&& q = s.fp.flags &&& q
  eof : t.fp.has SEOF = (s.fp.has SEOF || decide (result = .delivered []))
  mem : t.mem = store s.mem s.base result.bytes
  lbfsize : t.lbfsize = s.lbfsize
  output : t.output = s.output
  turn : t.turn = s.turn
  attempts : t.attempts = s.attempts

theorem zSread_eq (read : Reader ι) (i : ι) (s : ZFile) (buf : BitVec 64) (n : BitVec 32) :
    ∃ o f e, zSread read i s buf n = ((read i n).1,
        { s with
          fp := { s.fp with offset := o, flags := f }
          errno := e
          mem := store s.mem buf.toNat (read i n).2.bytes }, (read i n).2.ret) ∧
      ∀ q, ~~~SOFF &&& q = q → f &&& q = s.fp.flags &&& q := by
  have hclear : ∀ q, ~~~SOFF &&& q = q → (s.fp.flags &&& ~~~SOFF) &&& q = s.fp.flags &&& q := by
    intro q hq
    rw [BitVec.and_assoc, hq]
  unfold zSread
  simp only
  split
  · split
    · split
      · exact ⟨_, s.fp.flags, _, rfl, fun _ _ => rfl⟩
      · exact ⟨s.fp.offset, _, _, rfl, hclear⟩
    · exact ⟨s.fp.offset, s.fp.flags, _, rfl, fun _ _ => rfl⟩
  · split
    · exact ⟨s.fp.offset, _, _, rfl, hclear⟩
    · exact ⟨s.fp.offset, s.fp.flags, _, rfl, fun _ _ => rfl⟩

theorem delivered_toInt {bytes : List UInt8} (h : bytes.length < 2 ^ 31) :
    (ReadResult.delivered bytes).ret.toInt = bytes.length := by
  rw [ReadResult.ret, BitVec.toInt_ofNat', Int.bmod_eq_of_le (by omega) (by omega)]

theorem has_congr {fp fp' : File} {q : BitVec 16} (h : fp.flags &&& q = fp'.flags &&& q) :
    fp.has q = fp'.has q := by rw [File.has, File.has, h]

theorem mask_disjoint {mask q : BitVec 16} (h : ~~~mask &&& q = q) : mask &&& q = 0 := by
  calc mask &&& q = mask &&& (~~~mask &&& q) := by rw [h]
    _ = 0 := by rw [← BitVec.and_assoc]; simp

theorem mask_part {part whole q : BitVec 16} (hpart : ~~~part &&& ~~~whole = ~~~whole)
    (h : ~~~whole &&& q = q) : ~~~part &&& q = q := by
  calc ~~~part &&& q = ~~~part &&& (~~~whole &&& q) := by rw [h]
    _ = q := by rw [← BitVec.and_assoc, hpart, h]

theorem refilled_flags {f set q : BitVec 16} (hset : ~~~set &&& ~~~readFlags = ~~~readFlags)
    (h : ~~~readFlags &&& q = q) : (f &&& ~~~SMOD ||| set) &&& q = f &&& q := by
  rw [BitVec.and_or_distrib_right, mask_disjoint (mask_part hset h), BitVec.and_assoc,
    mask_part (by decide) h]
  exact BitVec.or_zero

theorem refilled_eof (f set : BitVec 16) :
    (f &&& ~~~SMOD ||| set) &&& SEOF = f &&& SEOF ||| set &&& SEOF := by
  rw [BitVec.and_or_distrib_right, BitVec.and_assoc]
  rfl

theorem refilled_eq (s : ZFile) {result : ReadResult} (hsmall : result.bytes.length < 2 ^ 31) :
    ∃ f, refilled s result.ret =
        ({ s with fp := { s.fp with r := BitVec.ofNat 32 result.bytes.length, flags := f } },
          if result.bytes = [] then -1 else 0) ∧
      (∀ q, ~~~readFlags &&& q = q → f &&& q = s.fp.flags &&& q) ∧
      (f &&& SEOF ≠ 0 ↔ s.fp.has SEOF = true ∨ result = .delivered []) := by
  cases result with
  | failed e =>
    refine ⟨s.fp.flags &&& ~~~SMOD ||| SERR, rfl, fun q => refilled_flags (by decide), ?_⟩
    rw [refilled_eof, show SERR &&& SEOF = 0 from rfl]
    simp [File.has]
  | delivered bytes =>
    cases bytes with
    | nil =>
      refine ⟨s.fp.flags &&& ~~~SMOD ||| SEOF, rfl, fun q => refilled_flags (by decide), ?_⟩
      rw [refilled_eof, BitVec.and_self]
      refine iff_of_true (fun hz => ?_) (.inr rfl)
      exact absurd (BitVec.or_eq_zero_iff.mp hz).2 (by decide)
    | cons b bytes =>
      have hint : (ReadResult.delivered (b :: bytes)).ret.toInt = (b :: bytes).length :=
        delivered_toInt hsmall
      refine ⟨s.fp.flags &&& ~~~SMOD, if_neg ?_, fun q hq => ?_, ?_⟩
      · change ¬ (ReadResult.delivered (b :: bytes)).ret.toInt ≤ 0
        rw [hint, List.length_cons]
        omega
      · rw [BitVec.and_assoc, mask_part (by decide) hq]
      · rw [BitVec.and_assoc, show ~~~SMOD &&& SEOF = SEOF from rfl]
        simp [File.has]

theorem zSrefill1_refilled (read : Reader ι) (i : ι) (s : ZFile)
    (hsmall : (read i s.fp.size).2.bytes.length < 2 ^ 31) :
    ∃ t, zSrefill1 read i s = ((read i s.fp.size).1, t,
        if (read i s.fp.size).2.bytes = [] then -1 else 0) ∧
      Refilled (read i s.fp.size).2 s t := by
  obtain ⟨o, f, e, hread, hf⟩ :=
    zSread_eq read i (s.setP s.fp.base) s.fp.base s.fp.size
  obtain ⟨g, hrun, hg, heof⟩ := refilled_eq (zSread read i
    (s.setP s.fp.base) s.fp.base s.fp.size).2.1 hsmall
  refine ⟨_, Prod.ext rfl hrun, ?_⟩
  rw [hread] at hg heof ⊢
  refine ⟨⟨o, g, rfl, fun q hq => (hg q hq).trans (hf q (mask_part (by decide) hq))⟩, ?_,
    rfl, rfl, rfl, rfl, rfl⟩
  have hkept : f &&& SEOF = s.fp.flags &&& SEOF := hf SEOF (by decide)
  change g &&& SEOF ≠ 0 ↔ decide (f &&& SEOF ≠ 0) = true ∨ _ at heof
  rw [hkept, decide_eq_true_eq] at heof
  change decide (g &&& SEOF ≠ 0) = (decide (s.fp.flags &&& SEOF ≠ 0) || _)
  rw [Bool.eq_iff_iff, Bool.or_eq_true, decide_eq_true_eq, decide_eq_true_eq, decide_eq_true_eq]
  exact heof

theorem zSrget_failed {env : Stdio → ℕ → Response} {fuel : ℕ} {s u : ZFile}
    (h : zSrefill0 env fuel s = some (u, -1)) (read : Reader ι) (i : ι) :
    zSrget env fuel read i s = some (i, u, -1) := by
  rw [zSrget, zSrefill, h]
  rfl

theorem zSrget_refilled {env : Stdio → ℕ → Response} {fuel : ℕ} {s u : ZFile}
    (h : zSrefill0 env fuel s = some (u, 1)) (read : Reader ι) (i : ι)
    (hsmall : (read i u.fp.size).2.bytes.length < 2 ^ 31) :
    ∃ t, Refilled (read i u.fp.size).2 u t ∧
      zSrget env fuel read i s = some ((read i u.fp.size).1,
        if (read i u.fp.size).2.bytes = [] then (t, -1)
        else takeByte (t.setR (t.fp.r - 1))) := by
  obtain ⟨t, hrun, ht⟩ := zSrefill1_refilled read i u hsmall
  refine ⟨t, ht, ?_⟩
  rw [zSrget, zSrefill, h, Option.map_some, Option.map_some]
  simp only [hrun]
  by_cases hnil : (read i u.fp.size).2.bytes = []
  · simp [hnil]
  · simp [hnil]

theorem flushLines_unlined (env : Stdio → ℕ → Response) (fuel : ℕ) {s : ZFile}
    (h : s.fp.has (SLBF ||| SNBF) = false) : flushLines env fuel s = some (s, 1) := by
  refine if_neg fun hc => ?_
  rw [h] at hc
  exact absurd hc.1 (by decide)

theorem zSrefill0_reads (env : Stdio → ℕ → Response) (fuel : ℕ) {s : ZFile}
    (hreads : s.fp.has SRD = true) (hline : s.fp.has (SLBF ||| SNBF) = false) :
    zSrefill0 env fuel s = some (s.setR 0, if s.fp.has SEOF then -1 else 1) := by
  by_cases heof : s.fp.has SEOF = true
  · rw [if_pos heof]
    exact if_pos heof
  · rw [if_neg heof]
    exact (if_neg heof).trans ((if_pos hreads).trans (flushLines_unlined env fuel hline))

def Sound (read : Reader ι) : Prop := ∀ i, (read i 0).2 = .delivered []

structure Blank (s : ZFile) : Prop where
  reads : s.fp.has SRD = true
  unlined : s.fp.has (SLBF ||| SNBF) = false
  r : s.fp.r = 0
  size : s.fp.size = 0

theorem Refilled.has {result : ReadResult} {s t : ZFile} (h : Refilled result s t) {q : BitVec 16}
    (hq : ~~~readFlags &&& q = q) : t.fp.has q = s.fp.has q := by
  obtain ⟨o, f, hfile, hf⟩ := h.file
  rw [hfile]
  exact has_congr (hf q hq)

theorem zSgetc_blank {read : Reader ι} (hread : Sound read) (env : Stdio → ℕ → Response)
    (fuel : ℕ) (i : ι) {s : ZFile} (h : Blank s) :
    ∃ i' t, zSgetc env fuel read i s = some (i', t, -1) ∧ Blank t := by
  have hneg : (s.fp.r - 1).toInt < 0 := by
    rw [h.r]
    decide
  have hget : zSgetc env fuel read i s = zSrget env fuel read i (s.setR (s.fp.r - 1)) := if_pos hneg
  have hfirst := zSrefill0_reads env fuel (s := s.setR (s.fp.r - 1)) h.reads h.unlined
  rw [hget]
  by_cases heof : s.fp.has SEOF = true
  · exact ⟨i, _, zSrget_failed (hfirst.trans (congrArg _ (congrArg _ (if_pos heof)))) read i,
      h.reads, h.unlined, rfl, h.size⟩
  · have hnone : (read i ((s.setR (s.fp.r - 1)).setR 0).fp.size).2 = .delivered [] := by
      rw [show ((s.setR (s.fp.r - 1)).setR 0).fp.size = 0 from h.size]
      exact hread i
    obtain ⟨t, ht, hrun⟩ := zSrget_refilled
      (hfirst.trans (congrArg _ (congrArg _ (if_neg heof)))) read i (by rw [hnone]; decide)
    rw [hnone] at hrun ht
    obtain ⟨o, f, hfile, -⟩ := ht.file
    refine ⟨_, t, hrun, ?_, ?_, ?_, ?_⟩
    · exact (ht.has (by decide)).trans h.reads
    · exact (ht.has (by decide)).trans h.unlined
    · rw [hfile]
      rfl
    · rw [hfile]
      exact h.size

theorem getchars_blank {read : Reader ι} (hread : Sound read) (env : Stdio → ℕ → Response) (n : ℕ)
    {i : ι} {stdin : ZFile} (h : Blank stdin) :
    getchars env read n i stdin = some (List.replicate n (-1)) := by
  induction n generalizing i stdin with
  | zero => rfl
  | succ n ih =>
    obtain ⟨i', t, hrun, ht⟩ := zSgetc_blank hread env (stdin.fp.size.toNat + 1) i h
    rw [getchars, zGetchar, hrun, Option.bind_some]
    change (getchars env read n i' t).map _ = _
    rw [ih ht]
    rfl

/-- A read takes what `split` grants it of the input; the state counts the reads. -/
def descriptor (split : Kernel) : Reader (ℕ × List UInt8) := fun (reads, input) n =>
  let count := if 0 < n.toInt then split reads n.toNat else 0
  ((reads + 1, input.drop count), .delivered (input.take count))

def expected (input : List UInt8) (i : ℕ) : ℤ :=
  match input[i]? with
  | some b => b.toNat
  | none => -1

def ReadsInput (env : Stdio → ℕ → Response) (split : Kernel) (m : Memory) (errno : ℤ)
    (input : List UInt8) : Prop :=
  ∀ n, getchars env (descriptor split) n (0, input) (zStdin m errno) =
    some ((List.range n).map (expected input))

theorem zStdin_blank (m : Memory) (errno : ℤ) : Blank (zStdin m errno) where
  reads := show decide (SRD &&& SRD ≠ 0) = true by decide
  unlined := show decide (SRD &&& (SLBF ||| SNBF) ≠ 0) = false by decide
  r := rfl
  size := rfl

theorem reads_input_iff (env : Stdio → ℕ → Response) (split : Kernel) (m : Memory) (errno : ℤ)
    (input : List UInt8) : ReadsInput env split m errno input ↔ input = [] := by
  have hsound : Sound (descriptor split) := fun _ => rfl
  have hrun := fun n => getchars_blank hsound env n (i := (0, input)) (zStdin_blank m errno)
  constructor
  · intro h
    have hone := (hrun 1).symm.trans (h 1)
    cases input with
    | nil => rfl
    | cons b input => simp [expected] at hone
  · rintro rfl n
    rw [hrun n]
    refine congrArg some (List.eq_replicate_iff.mpr ⟨by simp, ?_⟩).symm
    simp [expected]

theorem getchar_misses_input :
    Accepting (fun _ _ => 1) ∧
      getchars (fun _ _ => ⟨0, 0, .accepted 0⟩) (descriptor fun _ _ => 1) 2 (0, [97])
        (zStdin (fun _ => 0) 0) = some [-1, -1] ∧
      ¬ ReadsInput (fun _ _ => ⟨0, 0, .accepted 0⟩) (fun _ _ => 1) (fun _ => 0) 0 [97] := by
  have hrun : getchars (fun _ _ => ⟨0, 0, .accepted 0⟩) (descriptor fun _ _ => 1) 2 (0, [97])
      (zStdin (fun _ => 0) 0) = some [-1, -1] := by decide
  refine ⟨fun _ _ hn => ⟨Nat.le_refl 1, hn⟩, hrun, fun h => ?_⟩
  exact absurd (hrun.symm.trans (h 2)) (by decide)

end StreamGet

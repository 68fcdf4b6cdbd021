import LibSystemCall.StreamFlush

/-! # z_putc and _z_fflush

`_w` counts the room left, the bytes used or nothing, by the buffering of the stream. -/
namespace StreamPut

open ByteMemory StreamFile StreamFlush

def SRW : BitVec 16 := 0x0010

def EOF : ℤ := -1

/-- A stream with `_lbfsize`; `output` are the bytes that `_write` has accepted. -/
structure ZFile extends Stdio where
  lbfsize : BitVec 32
  output : List UInt8

def ZFile.base (s : ZFile) : ℕ := s.fp.base.toNat

def taken (m : Memory) (log : List Attempt) : List UInt8 :=
  log.flatMap fun a => load m a.addr a.result.bytes

/-- `z_sflush`; `env` responds to a flush begun in the stream. -/
def ZFile.sflush (env : Stdio → ℕ → Response) (fuel : ℕ) (s : ZFile) : Option (ZFile × ℤ) :=
  (zSflush (env s.toStdio) fuel s.toStdio).map fun (io, ret) =>
    ({ s with
      toStdio := io
      output := s.output ++ taken s.mem (io.attempts.drop s.attempts.length) }, ret)

def zFflush (env : Stdio → ℕ → Response) (fuel : ℕ) (s : ZFile) : Option (ZFile × ℤ) :=
  if s.fp.has (SWR ||| SRW) then s.sflush env fuel else some (s, 0)

def lowByte (c : BitVec 32) : UInt8 := UInt8.ofBitVec (c.setWidth 8)

def newline : UInt8 := 10

def ZFile.push (s : ZFile) (c : UInt8) : ZFile :=
  { s with
    mem := store s.mem s.fp.p.toNat [c]
    fp := { s.fp with p := s.fp.p + 1 } }

def ZFile.setP (s : ZFile) (p : BitVec 64) : ZFile := { s with fp := { s.fp with p := p } }

def ZFile.setR (s : ZFile) (r : BitVec 32) : ZFile := { s with fp := { s.fp with r := r } }

def ZFile.setW (s : ZFile) (w : BitVec 32) : ZFile := { s with fp := { s.fp with w := w } }

def ZFile.setFlag (s : ZFile) (mask : BitVec 16) : ZFile := { s with fp := s.fp.set mask }

def ZFile.clearFlag (s : ZFile) (mask : BitVec 16) : ZFile := { s with fp := s.fp.clear mask }

/-- `_z_swbuf` from `fp->_w--` on. -/
def stuff (env : Stdio → ℕ → Response) (fuel : ℕ) (c : UInt8) (s : ZFile) (n : BitVec 64) :
    Option (ZFile × ℤ) :=
  let s := (s.setW (s.fp.w - 1)).push c
  if n + 1 = s.fp.size.signExtend 64 ∨ s.fp.has SLBF ∧ c = newline then
    (zFflush env fuel s).map fun (s, ret) => (s, if ret ≠ 0 then EOF else c.toNat)
  else some (s, c.toNat)

def zSwbuf (env : Stdio → ℕ → Response) (fuel : ℕ) (c : BitVec 32) (s : ZFile) :
    Option (ZFile × ℤ) :=
  let s := s.setW s.lbfsize
  let n := s.fp.p - s.fp.base
  if n ≥ s.fp.size.signExtend 64 then
    (zFflush env fuel s).bind fun (s, ret) =>
      if ret ≠ 0 then some (s, EOF) else stuff env fuel (lowByte c) s 0
  else stuff env fuel (lowByte c) s n

def zSputc (env : Stdio → ℕ → Response) (fuel : ℕ) (c : BitVec 32) (s : ZFile) :
    Option (ZFile × ℤ) :=
  let s := s.setW (s.fp.w - 1)
  if 0 ≤ s.fp.w.toInt ∨ s.lbfsize.toInt ≤ s.fp.w.toInt ∧ lowByte c ≠ newline then
    some (s.push (lowByte c), (lowByte c).toNat)
  else zSwbuf env fuel c s

def zPutc (env : Stdio → ℕ → Response) (fuel : ℕ) (c : BitVec 32) (s : ZFile) :
    Option (ZFile × ℤ) := zSputc env fuel c s

/-! Calls on one stream, and a kernel that always accepts something. -/

inductive Call where
  | putc (c : BitVec 32)
  | fflush

/-- How many bytes a call transfers, by the number of the call and the bytes it asks for. -/
abbrev Kernel := ℕ → ℕ → ℕ

def Accepting (k : Kernel) : Prop := ∀ i n, 0 < n → 1 ≤ k i n ∧ k i n ≤ n

def left (k : Kernel) (n turn : ℕ) : ℕ → ℕ
  | 0 => n
  | i + 1 => left k n turn i - k (turn + i) (left k n turn i)

def answersTo (k : Kernel) (n turn j : ℕ) : Response :=
  ⟨0, 0, .accepted (k j (left k n turn (j - turn)))⟩

def answers (k : Kernel) (s : Stdio) : ℕ → Response :=
  answersTo k (s.fp.p - s.fp.base).toNat s.turn

/-- The fuel is enough for a full buffer. -/
def Call.run (k : Kernel) (s : ZFile) : Call → Option (ZFile × ℤ)
  | .putc c => zPutc (answers k) (s.fp.size.toNat + 1) c s
  | .fflush => zFflush (answers k) (s.fp.size.toNat + 1) s

def runCalls (k : Kernel) : ZFile → List Call → Option ZFile
  | s, [] => some s
  | s, call :: calls => (call.run k s).bind fun r => runCalls k r.1 calls

def bytesPut : List Call → List UInt8
  | [] => []
  | .putc c :: calls => lowByte c :: bytesPut calls
  | .fflush :: calls => bytesPut calls

theorem left_succ (k : Kernel) (n turn i : ℕ) :
    left k n turn (i + 1) = left k (n - k turn n) (turn + 1) i := by
  induction i with
  | zero => rfl
  | succ i ih =>
    rw [left, ih, left]
    congr 2
    omega

theorem answersTo_first (k : Kernel) (n turn : ℕ) :
    answersTo k n turn turn = ⟨0, 0, .accepted (k turn n)⟩ := by
  rw [answersTo, Nat.sub_self, left]

theorem answersTo_later (k : Kernel) {n turn j : ℕ} (h : turn < j) :
    answersTo k n turn j = answersTo k (n - k turn n) (turn + 1) j := by
  have hj : j - turn = j - (turn + 1) + 1 := by omega
  rw [answersTo, answersTo, hj, left_succ]

/-- Only `_offset` and `__SOFF` change besides the log, which records the bytes from `a` on. -/
structure Wrote (s t : Stdio) (a n : ℕ) : Prop where
  file : ∃ o f, t.fp = { s.fp with offset := o, flags := f } ∧
    ∀ q, ~~~SOFF &&& q = q → f &&& q = s.fp.flags &&& q
  mem : t.mem = s.mem
  log : ∃ log, t.attempts = s.attempts ++ log ∧ taken s.mem log = load s.mem a n

theorem Wrote.trans {s t u : Stdio} {a m n : ℕ} (h : Wrote s t a m) (h' : Wrote t u (a + m) n) :
    Wrote s u a (m + n) := by
  obtain ⟨o, f, hfile, hf⟩ := h.file
  obtain ⟨o', f', hfile', hf'⟩ := h'.file
  obtain ⟨log, hlog, htaken⟩ := h.log
  obtain ⟨log', hlog', htaken'⟩ := h'.log
  refine ⟨⟨o', f', by rw [hfile', hfile], fun q hq => ?_⟩, h'.mem.trans h.mem,
    log ++ log', by rw [hlog', hlog, List.append_assoc], ?_⟩
  · rw [hf' q hq, hfile]
    exact hf q hq
  · rw [h.mem] at htaken'
    rw [taken, List.flatMap_append, load_add]
    exact congrArg₂ (· ++ ·) htaken htaken'

theorem signExtend_ofNat {c : ℕ} (h : c < 2 ^ 31) :
    (BitVec.ofNat 32 c).signExtend 64 = BitVec.ofNat 64 c := by
  have hint : (BitVec.ofNat 32 c).toInt = c := by
    rw [BitVec.toInt_ofNat', Int.bmod_eq_of_le (by omega) (by omega)]
  rw [BitVec.signExtend, hint]
  rfl

theorem zSwrite_wrote {resp : Response} {c : ℕ} (hresp : resp.write = .accepted c) {s : Stdio}
    (happ : s.fp.has SAPP = false) (buf : BitVec 64) (n : BitVec 32) :
    Wrote s (zSwrite resp s buf n).1 buf.toNat c ∧
      (zSwrite resp s buf n).1.turn = s.turn + 1 ∧
      (zSwrite resp s buf n).2 = BitVec.ofNat 32 c := by
  have hw : zSwrite resp s buf n = writeOut (.accepted c) { s with turn := s.turn + 1 } buf n := by
    simp only [zSwrite, happ, Bool.false_eq_true, if_false, hresp]
  rw [hw]
  refine ⟨⟨writeOut_file _ _ buf n, rfl, [⟨buf.toNat, n.toInt, .accepted c⟩], rfl, ?_⟩, rfl, rfl⟩
  simp only [taken, List.flatMap_cons, List.flatMap_nil, List.append_nil, WriteResult.bytes]

theorem flushLoop_wrote {k : Kernel} (hk : Accepting k) {env : ℕ → Response} {fuel : ℕ}
    {s : Stdio} {p n : BitVec 64} (hfuel : n.toNat < fuel) (happ : s.fp.has SAPP = false)
    (hfits : p.toNat + n.toNat < 2 ^ 64) (hsmall : n.toNat < 2 ^ 31)
    (henv : ∀ j, s.turn ≤ j → env j = answersTo k n.toNat s.turn j) :
    ∃ t, flushLoop env fuel s p n = some (t, 0) ∧ Wrote s t p.toNat n.toNat := by
  induction fuel generalizing s p n with
  | zero => omega
  | succ fuel ih =>
    rw [flushLoop]
    by_cases hn : 0 < n
    · have hpos : 0 < n.toNat := by simpa [BitVec.lt_def] using hn
      obtain ⟨hlo, hhi⟩ := hk s.turn n.toNat hpos
      have hresp : (env s.turn).write = .accepted (k s.turn n.toNat) := by
        rw [henv s.turn (Nat.le_refl _), answersTo_first]
      obtain ⟨hw, hturn, hret⟩ := zSwrite_wrote hresp happ p (n.setWidth 32)
      generalize hkc : k s.turn n.toNat = c at *
      have ht : (zSwrite (env s.turn) s p (n.setWidth 32)).2.signExtend 64 =
          BitVec.ofNat 64 c := by rw [hret, signExtend_ofNat (by omega)]
      have hc : (BitVec.ofNat 64 c).toNat = c := by
        rw [BitVec.toNat_ofNat, Nat.mod_eq_of_lt (by omega)]
      have hnot : ¬ BitVec.ofNat 64 c ≤ 0 := by
        rw [BitVec.le_def, hc]
        simp
        omega
      have hp' : (p + BitVec.ofNat 64 c).toNat = p.toNat + c := by
        rw [BitVec.toNat_add, hc, Nat.mod_eq_of_lt (by omega)]
      have hn' : (n - BitVec.ofNat 64 c).toNat = n.toNat - c := by
        rw [BitVec.toNat_sub_of_le (by rw [BitVec.le_def, hc]; exact hhi), hc]
      have happ' : (zSwrite (env s.turn) s p (n.setWidth 32)).1.fp.has SAPP = false := by
        obtain ⟨o, f, hfile, hf⟩ := hw.file
        rw [hfile, File.has, hf SAPP (by decide)]
        exact happ
      have henv' : ∀ j, (zSwrite (env s.turn) s p (n.setWidth 32)).1.turn ≤ j →
          env j = answersTo k (n - BitVec.ofNat 64 c).toNat
            (zSwrite (env s.turn) s p (n.setWidth 32)).1.turn j := by
        intro j hj
        rw [hturn] at hj ⊢
        rw [henv j (by omega), answersTo_later k (by omega), hkc, hn']
      obtain ⟨t, hrun, ht'⟩ := ih (p := p + BitVec.ofNat 64 c) (n := n - BitVec.ofNat 64 c)
        (by omega) happ' (by omega) (by omega) henv'
      rw [hp', hn'] at ht'
      simp only [if_pos hn, ht, if_neg hnot]
      have hsum := hw.trans ht'
      rw [Nat.add_sub_cancel' hhi] at hsum
      exact ⟨t, hrun, hsum⟩
    · have hzero : n.toNat = 0 := by
        have := mt BitVec.lt_def.mpr hn
        simpa using this
      refine ⟨s, if_neg hn, ⟨s.fp.offset, s.fp.flags, rfl, fun _ _ => rfl⟩, rfl, [], ?_, ?_⟩
      · rw [List.append_nil]
      · rw [hzero]
        rfl

structure SameBuffer (s t : ZFile) : Prop where
  base : t.fp.base = s.fp.base
  size : t.fp.size = s.fp.size
  lbfsize : t.lbfsize = s.lbfsize
  flags : ∀ q, ~~~SOFF &&& q = q → t.fp.has q = s.fp.has q

theorem SameBuffer.refl (s : ZFile) : SameBuffer s s := ⟨rfl, rfl, rfl, fun _ _ => rfl⟩

theorem SameBuffer.trans {s t u : ZFile} (h : SameBuffer s t) (h' : SameBuffer t u) :
    SameBuffer s u where
  base := h'.base.trans h.base
  size := h'.size.trans h.size
  lbfsize := h'.lbfsize.trans h.lbfsize
  flags q hq := (h'.flags q hq).trans (h.flags q hq)

theorem sameBuffer_push (s : ZFile) (c : UInt8) : SameBuffer s (s.push c) :=
  ⟨rfl, rfl, rfl, fun _ _ => rfl⟩

theorem sameBuffer_setW (s : ZFile) (w : BitVec 32) : SameBuffer s (s.setW w) :=
  ⟨rfl, rfl, rfl, fun _ _ => rfl⟩

structure Writes (s : ZFile) : Prop where
  writes : s.fp.has SWR = true
  notReads : s.fp.has SRD = false
  notAppends : s.fp.has SAPP = false
  buffer : s.fp.base ≠ 0
  size : 1 ≤ s.fp.size.toInt
  fits : s.base + s.fp.size.toNat < 2 ^ 64

theorem size_small {size : BitVec 32} (h : 1 ≤ size.toInt) :
    size.toNat < 2 ^ 31 ∧ size.toInt = size.toNat := by
  rw [BitVec.toInt_eq_toNat_cond] at h ⊢
  split at h
  · next hlt =>
    rw [if_pos hlt]
    omega
  · omega

theorem size_signExtend {size : BitVec 32} (h : 1 ≤ size.toInt) :
    (size.signExtend 64).toNat = size.toNat := by
  obtain ⟨hsmall, -⟩ := size_small h
  have hext := signExtend_ofNat hsmall
  rw [BitVec.ofNat_toNat, BitVec.setWidth_eq] at hext
  rw [hext, BitVec.toNat_ofNat, Nat.mod_eq_of_lt (by omega)]

theorem Writes.size_small {s : ZFile} (h : Writes s) :
    s.fp.size.toNat < 2 ^ 31 ∧ s.fp.size.toInt = s.fp.size.toNat := StreamPut.size_small h.size

theorem SameBuffer.writes {s t : ZFile} (h : SameBuffer s t) (hs : Writes s) : Writes t where
  writes := (h.flags SWR (by decide)).trans hs.writes
  notReads := (h.flags SRD (by decide)).trans hs.notReads
  notAppends := (h.flags SAPP (by decide)).trans hs.notAppends
  buffer := by rw [h.base]; exact hs.buffer
  size := by rw [h.size]; exact hs.size
  fits := by rw [ZFile.base, h.base, h.size]; exact hs.fits

theorem has_union {fp : File} {a b : BitVec 16} (h : fp.has a = true) :
    fp.has (a ||| b) = true := by
  simp only [File.has, decide_eq_true_eq] at h ⊢
  intro hz
  apply h
  rw [BitVec.and_or_distrib_left] at hz
  exact (BitVec.or_eq_zero_iff.mp hz).1

/-- `content` is what `_write` has accepted and then the `used` bytes of the buffer. -/
structure Held (s : ZFile) (used : ℕ) (content : List UInt8) : Prop extends Writes s where
  p : s.fp.p.toNat = s.base + used
  room : used ≤ s.fp.size.toNat
  content : s.output ++ load s.mem s.base used = content

theorem Held.setW {s : ZFile} {used : ℕ} {content : List UInt8} (h : Held s used content)
    (w : BitVec 32) : Held (s.setW w) used content :=
  ⟨(sameBuffer_setW s w).writes h.toWrites, h.p, h.room, h.content⟩

theorem Held.push {s : ZFile} {used : ℕ} {content : List UInt8} (h : Held s used content)
    (hused : used < s.fp.size.toNat) (c : UInt8) :
    Held (s.push c) (used + 1) (content ++ [c]) := by
  have hp := h.p
  have hfits := h.fits
  refine ⟨(sameBuffer_push s c).writes h.toWrites, ?_, hused, ?_⟩
  · change (s.fp.p + 1).toNat = s.base + (used + 1)
    rw [BitVec.toNat_add_of_lt (by simp; omega), hp]
    rfl
  · change s.output ++ load (store s.mem s.fp.p.toNat [c]) s.base (used + 1) = content ++ [c]
    have hbefore : load (store s.mem (s.base + used) [c]) s.base used = load s.mem s.base used :=
      load_store_disjoint (.inl (Nat.le_refl _))
    have hlast : load (store s.mem (s.base + used) [c]) (s.base + used) 1 = [c] :=
      load_store_same s.mem (s.base + used) [c]
    rw [hp, load_add, hbefore, hlast, ← List.append_assoc, h.content]

theorem Held.zFflush {k : Kernel} (hk : Accepting k) {s : ZFile} {used fuel : ℕ}
    {content : List UInt8} (h : Held s used content) (hfuel : used < fuel) :
    ∃ t, zFflush (answers k) fuel s = some (t, 0) ∧ Held t 0 content ∧ SameBuffer s t ∧
      t.fp.w = if s.fp.has (SLBF ||| SNBF) then 0 else s.fp.size := by
  obtain ⟨hsmall, -⟩ := h.size_small
  have hfits := h.fits
  have hp := h.p
  have hroom := h.room
  have hn : (s.fp.p - s.fp.base).toNat = used := by
    rw [BitVec.toNat_sub_of_le (by rw [BitVec.le_def, hp, ZFile.base]; omega), hp, ZFile.base]
    omega
  obtain ⟨io, hrun, hw⟩ := flushLoop_wrote hk (s := begun s.toStdio) (p := s.fp.base)
    (n := s.fp.p - s.fp.base) (show _ < fuel by omega) h.notAppends
    (by rw [hn, ← ZFile.base]; omega) (by omega)
    (show ∀ j, _ → answers k s.toStdio j = _ from fun j _ => rfl)
  have hflush : zSflush (answers k s.toStdio) fuel s.toStdio = some (io, 0) := by
    unfold zSflush
    simp only [if_neg h.buffer, h.notReads, h.writes, Bool.false_eq_true, if_false, if_true]
    exact hrun
  obtain ⟨o, f, hfile, hf⟩ := hw.file
  obtain ⟨log, hlog, htaken⟩ := hw.log
  refine ⟨_, by
    rw [StreamPut.zFflush, if_pos (has_union h.writes), ZFile.sflush, hflush, Option.map_some], ?_⟩
  have hsame : SameBuffer s { s with
      toStdio := io
      output := s.output ++ taken s.mem (io.attempts.drop s.attempts.length) } := by
    refine ⟨by simp only [hfile]; rfl, by simp only [hfile]; rfl, rfl, fun q hq => ?_⟩
    simp only [hfile, File.has, hf q hq]
    rfl
  refine ⟨⟨hsame.writes h.toWrites, ?_, Nat.zero_le _, ?_⟩, hsame, by simp only [hfile]; rfl⟩
  · simp only [ZFile.base, hfile]
    rfl
  · rw [load_zero, List.append_nil]
    change s.output ++ taken s.mem (io.attempts.drop s.attempts.length) = content
    rw [hlog, show (begun s.toStdio).attempts = s.attempts from rfl, List.drop_left]
    rw [show (begun s.toStdio).mem = s.mem from rfl, hn] at htaken
    rw [htaken]
    exact h.content

inductive Mode where
  | full
  | line
  | unbuffered

def Mode.Configures : Mode → ZFile → Prop
  | full, s => s.fp.has (SLBF ||| SNBF) = false ∧ s.lbfsize.toInt = 0
  | line, s => s.fp.has SLBF = true ∧ s.lbfsize.toInt = -s.fp.size.toInt
  | unbuffered, s => s.fp.has SNBF = true ∧ s.lbfsize.toInt = 0 ∧ s.fp.size.toInt = 1

def Mode.Counts (size used w : ℤ) : Mode → Prop
  | full => w + used = size ∨ -1 ≤ w ∧ w ≤ 0 ∧ used < size
  | line => w = -used
  | unbuffered => w = 0 ∧ used = 0

theorem SameBuffer.configures {s t : ZFile} (h : SameBuffer s t) {m : Mode}
    (hm : m.Configures s) : m.Configures t := by
  cases m with
  | full => exact ⟨(h.flags _ (by decide)).trans hm.1, by rw [h.lbfsize]; exact hm.2⟩
  | line => exact ⟨(h.flags _ (by decide)).trans hm.1, by rw [h.lbfsize, h.size]; exact hm.2⟩
  | unbuffered =>
    exact ⟨(h.flags _ (by decide)).trans hm.1, by rw [h.lbfsize, h.size]; exact hm.2⟩

theorem Mode.counts_flushed {m : Mode} {s : ZFile} (hm : m.Configures s) :
    m.Counts s.fp.size.toInt 0 (if s.fp.has (SLBF ||| SNBF) then 0 else s.fp.size).toInt := by
  cases m with
  | full =>
    rw [hm.1]
    exact .inl (Int.add_zero _)
  | line =>
    rw [has_union hm.1]
    rfl
  | unbuffered =>
    rw [BitVec.or_comm, has_union hm.1]
    exact ⟨rfl, rfl⟩

structure Buffered (m : Mode) (s : ZFile) (used : ℕ) (content : List UInt8) : Prop
    extends Held s used content where
  mode : m.Configures s
  w : m.Counts s.fp.size.toInt used s.fp.w.toInt

theorem Buffered.zFflush {k : Kernel} (hk : Accepting k) {m : Mode} {s : ZFile} {used fuel : ℕ}
    {content : List UInt8} (h : Held s used content) (hm : m.Configures s) (hfuel : used < fuel) :
    ∃ t, zFflush (answers k) fuel s = some (t, 0) ∧ Buffered m t 0 content ∧ SameBuffer s t := by
  obtain ⟨t, hrun, ht, hsame, hw⟩ := h.zFflush hk hfuel
  refine ⟨t, hrun, ⟨ht, hsame.configures hm, ?_⟩, hsame⟩
  rw [hw, hsame.size]
  exact m.counts_flushed hm

theorem toInt_pred {w : BitVec 32} (h : -2 ^ 31 < w.toInt) : (w - 1).toInt = w.toInt - 1 := by
  have hlt := BitVec.toInt_lt (x := w)
  have hone : (1 : BitVec 32).toInt = 1 := rfl
  rw [BitVec.toInt_sub, hone, Int.bmod_eq_of_le (by omega) (by omega)]

def PutOf (m : Mode) (s : ZFile) (content : List UInt8) (c : UInt8) (t : ZFile) : Prop :=
  SameBuffer s t ∧ ∃ used, Buffered m t used (content ++ [c]) ∧
    (s.fp.has SLBF = true → c = newline → used = 0)

theorem Held.stuff {k : Kernel} (hk : Accepting k) {m : Mode} {s : ZFile} {used fuel : ℕ}
    {content : List UInt8} (h : Held s used content) (hm : m.Configures s)
    (hused : used < s.fp.size.toNat) (hfuel : s.fp.size.toNat < fuel) {c : UInt8} {n : BitVec 64}
    (hn : n.toNat = used)
    (hw : ¬(used + 1 = s.fp.size.toNat ∨ s.fp.has SLBF = true ∧ c = newline) →
      m.Counts s.fp.size.toInt (used + 1 : ℕ) (s.fp.w - 1).toInt) :
    ∃ t, stuff (answers k) fuel c s n = some (t, (c.toNat : ℤ)) ∧ PutOf m s content c t := by
  obtain ⟨hsmall, -⟩ := h.size_small
  have hput : Held ((s.setW (s.fp.w - 1)).push c) (used + 1) (content ++ [c]) :=
    (h.setW (s.fp.w - 1)).push hused c
  have hsame : SameBuffer s ((s.setW (s.fp.w - 1)).push c) :=
    (sameBuffer_setW s _).trans (sameBuffer_push _ c)
  have hfull : n + 1 = s.fp.size.signExtend 64 ↔ used + 1 = s.fp.size.toNat := by
    have hsucc : (n + 1).toNat = used + 1 := by
      rw [BitVec.toNat_add_of_lt (by simp; omega), hn]
      rfl
    rw [← BitVec.toNat_inj, hsucc, size_signExtend h.size]
  unfold StreamPut.stuff
  by_cases hflush : used + 1 = s.fp.size.toNat ∨ s.fp.has SLBF = true ∧ c = newline
  · obtain ⟨t, hrun, ht, ht'⟩ := Buffered.zFflush hk hput (hsame.configures hm)
      (show used + 1 < fuel by omega)
    refine ⟨t, (if_pos (hflush.imp hfull.mpr id)).trans ?_, hsame.trans ht', 0, ht, fun _ _ => rfl⟩
    rw [hrun]
    rfl
  · refine ⟨_, if_neg fun hc => hflush (hc.imp hfull.mp id), hsame, used + 1,
      ⟨hput, hsame.configures hm, hw hflush⟩, fun hl hc => absurd (.inr ⟨hl, hc⟩) hflush⟩

theorem Mode.counts_first {m : Mode} {s : ZFile} (hs : Writes s) (hm : m.Configures s)
    (hroom : 0 + 1 ≠ s.fp.size.toNat) :
    m.Counts s.fp.size.toInt (0 + 1 : ℕ)
      ((if s.fp.has (SLBF ||| SNBF) then 0 else s.fp.size) - 1).toInt := by
  obtain ⟨hsmall, hint⟩ := hs.size_small
  have hsize := hs.size
  cases m with
  | full =>
    rw [hm.1, if_neg (by decide), toInt_pred (by omega)]
    exact .inl (by omega)
  | line =>
    rw [has_union hm.1]
    rfl
  | unbuffered =>
    obtain ⟨-, -, hone⟩ := hm
    omega

theorem Mode.counts_next {m : Mode} {s : ZFile} {used : ℕ} (hs : Writes s) (hm : m.Configures s)
    (hused : used < s.fp.size.toNat) (hline : s.fp.has SLBF = false)
    (hroom : used + 1 ≠ s.fp.size.toNat) :
    m.Counts s.fp.size.toInt (used + 1 : ℕ) (s.lbfsize - 1).toInt := by
  obtain ⟨hsmall, hint⟩ := hs.size_small
  cases m with
  | full =>
    rw [toInt_pred (by rw [hm.2]; omega), hm.2]
    exact .inr ⟨by omega, by omega, by omega⟩
  | line =>
    rw [hm.1] at hline
    exact absurd hline (by decide)
  | unbuffered =>
    obtain ⟨-, -, hone⟩ := hm
    omega

theorem PutOf.of_same {m : Mode} {s s' t : ZFile} {content : List UInt8} {c : UInt8}
    (hsame : SameBuffer s s') (h : PutOf m s' content c t) : PutOf m s content c t := by
  obtain ⟨hsame', used, hb, hline⟩ := h
  refine ⟨hsame.trans hsame', used, hb, fun hl => hline ?_⟩
  rw [hsame.flags SLBF (by decide)]
  exact hl

theorem Held.zSwbuf {k : Kernel} (hk : Accepting k) {m : Mode} {s : ZFile} {used fuel : ℕ}
    {content : List UInt8} (h : Held s used content) (hm : m.Configures s)
    (hfuel : s.fp.size.toNat < fuel) (c : BitVec 32)
    (hline : s.fp.has SLBF = true → used + 1 < s.fp.size.toNat → lowByte c = newline) :
    ∃ t, zSwbuf (answers k) fuel c s = some (t, ((lowByte c).toNat : ℤ)) ∧
      PutOf m s content (lowByte c) t := by
  obtain ⟨hsmall, -⟩ := h.size_small
  have hfits := h.fits
  have hp := h.p
  have hroom := h.room
  have hn : (s.fp.p - s.fp.base).toNat = used := by
    rw [BitVec.toNat_sub_of_le (by rw [BitVec.le_def, hp, ZFile.base]; omega), hp, ZFile.base]
    omega
  have hfull : s.fp.p - s.fp.base ≥ s.fp.size.signExtend 64 ↔ s.fp.size.toNat ≤ used := by
    rw [ge_iff_le, BitVec.le_def, hn, size_signExtend h.size]
  have hsame := sameBuffer_setW s s.lbfsize
  have hset : Held (s.setW s.lbfsize) used content := h.setW _
  unfold StreamPut.zSwbuf
  by_cases hge : s.fp.size.toNat ≤ used
  · obtain ⟨t, hrun, ht, ht', hw⟩ := hset.zFflush hk (show used < fuel by omega)
    have hmode := ht'.configures (hsame.configures hm)
    have hsize : t.fp.size = s.fp.size := ht'.size
    have hpos : 0 < t.fp.size.toNat := by
      have hlo := ht.size
      rw [ht.size_small.2] at hlo
      omega
    have hcount : 0 + 1 ≠ t.fp.size.toNat →
        m.Counts t.fp.size.toInt (0 + 1 : ℕ) (t.fp.w - 1).toInt := by
      intro hone
      rw [hw, ← ht'.flags _ (by decide), ← ht'.size]
      exact m.counts_first ht.toWrites hmode hone
    obtain ⟨u, hput, hu⟩ := ht.stuff hk hmode hpos (by rw [hsize]; exact hfuel) (c := lowByte c)
      (n := 0) rfl fun hflush => hcount fun hone => hflush (.inl hone)
    refine ⟨u, (if_pos (hfull.mpr hge)).trans ?_, hu.of_same (hsame.trans ht')⟩
    rw [hrun]
    exact hput
  · have hused : used < s.fp.size.toNat := by omega
    obtain ⟨u, hput, hu⟩ := hset.stuff hk (hsame.configures hm) hused hfuel (c := lowByte c) hn (by
      intro hflush
      have hone : used + 1 ≠ s.fp.size.toNat := fun hc => hflush (.inl hc)
      refine m.counts_next hset.toWrites (hsame.configures hm) hused ?_ hone
      exact Bool.eq_false_iff.mpr fun hl => hflush (.inr ⟨hl, hline hl (by omega)⟩))
    exact ⟨u, (if_neg fun hc => hge (hfull.mp hc)).trans hput, hu.of_same hsame⟩

/-- The test of `_z_sputc` for the inline put. -/
def Inline (s : ZFile) (c : UInt8) : Prop :=
  0 ≤ (s.fp.w - 1).toInt ∨ s.lbfsize.toInt ≤ (s.fp.w - 1).toInt ∧ c ≠ newline

theorem Buffered.w_pred {m : Mode} {s : ZFile} {used : ℕ} {content : List UInt8}
    (h : Buffered m s used content) : (s.fp.w - 1).toInt = s.fp.w.toInt - 1 := by
  obtain ⟨hsmall, hint⟩ := h.size_small
  have hroom := h.room
  have hw := h.w
  cases m with
  | full =>
    apply toInt_pred
    rcases hw with hw | ⟨hw, -, -⟩ <;> omega
  | line =>
    exact toInt_pred (by rw [show s.fp.w.toInt = -used from hw]; omega)
  | unbuffered => exact toInt_pred (by rw [hw.1]; decide)

theorem Buffered.inline {m : Mode} {s : ZFile} {used : ℕ} {content : List UInt8} {c : UInt8}
    (h : Buffered m s used content) (hin : Inline s c) :
    used < s.fp.size.toNat ∧ m.Counts s.fp.size.toInt (used + 1 : ℕ) (s.fp.w - 1).toInt ∧
      (s.fp.has SLBF = true → c ≠ newline) := by
  obtain ⟨hsmall, hint⟩ := h.size_small
  have hpred := h.w_pred
  have hw := h.w
  have hmode := h.mode
  rw [Inline, hpred] at hin
  rw [hpred]
  cases m with
  | full =>
    obtain ⟨hflag, hlbf⟩ := hmode
    have hpos : 0 ≤ s.fp.w.toInt - 1 := by
      rcases hin with hin | ⟨hin, -⟩ <;> omega
    have hsum : s.fp.w.toInt + used = s.fp.size.toInt := by
      rcases hw with hw | ⟨-, hw, -⟩ <;> omega
    refine ⟨by omega, .inl (by omega), fun hl => ?_⟩
    rw [has_union hl] at hflag
    exact absurd hflag (by decide)
  | line =>
    obtain ⟨-, hlbf⟩ := hmode
    rw [show s.fp.w.toInt = -used from hw] at hin ⊢
    rcases hin with hin | ⟨hin, hc⟩
    · omega
    · exact ⟨by omega, show -(used : ℤ) - 1 = -((used + 1 : ℕ) : ℤ) by omega, fun _ => hc⟩
  | unbuffered =>
    obtain ⟨-, hlbf, -⟩ := hmode
    rw [hw.1] at hin
    rcases hin with hin | ⟨hin, -⟩ <;> omega

theorem Buffered.not_inline {m : Mode} {s : ZFile} {used : ℕ} {content : List UInt8} {c : UInt8}
    (h : Buffered m s used content) (hin : ¬ Inline s c) (hl : s.fp.has SLBF = true)
    (hroom : used + 1 < s.fp.size.toNat) : c = newline := by
  obtain ⟨hsmall, hint⟩ := h.size_small
  have hpred := h.w_pred
  have hw := h.w
  have hmode := h.mode
  rw [Inline, hpred] at hin
  cases m with
  | full =>
    obtain ⟨hflag, -⟩ := hmode
    rw [has_union hl] at hflag
    exact absurd hflag (by decide)
  | line =>
    obtain ⟨-, hlbf⟩ := hmode
    rw [show s.fp.w.toInt = -used from hw] at hin
    by_contra hc
    exact hin (.inr ⟨by omega, hc⟩)
  | unbuffered =>
    obtain ⟨-, -, hone⟩ := hmode
    omega

theorem Buffered.zPutc {k : Kernel} (hk : Accepting k) {m : Mode} {s : ZFile} {used fuel : ℕ}
    {content : List UInt8} (h : Buffered m s used content) (hfuel : s.fp.size.toNat < fuel)
    (c : BitVec 32) :
    ∃ t, zPutc (answers k) fuel c s = some (t, ((lowByte c).toNat : ℤ)) ∧
      PutOf m s content (lowByte c) t := by
  have hset : Held (s.setW (s.fp.w - 1)) used content := h.setW _
  have hsame := sameBuffer_setW s (s.fp.w - 1)
  unfold StreamPut.zPutc zSputc
  by_cases hin : Inline s (lowByte c)
  · obtain ⟨hused, hcount, hline⟩ := h.inline hin
    refine ⟨_, if_pos hin, hsame.trans (sameBuffer_push _ _), used + 1,
      ⟨hset.push hused _, ?_, hcount⟩, fun hl hc => absurd hc (hline hl)⟩
    exact (hsame.trans (sameBuffer_push _ _)).configures h.mode
  · obtain ⟨t, hrun, ht⟩ := hset.zSwbuf hk (hsame.configures h.mode) hfuel c (h.not_inline hin)
    exact ⟨t, (if_neg hin).trans hrun, ht.of_same hsame⟩

theorem Buffered.call {k : Kernel} (hk : Accepting k) {m : Mode} {s : ZFile} {used : ℕ}
    {content : List UInt8} (h : Buffered m s used content) (call : Call) :
    ∃ t ret, call.run k s = some (t, ret) ∧ SameBuffer s t ∧
      ∃ used', Buffered m t used' (content ++ bytesPut [call]) := by
  have hroom := h.room
  cases call with
  | putc c =>
    obtain ⟨t, hrun, hsame, used', ht, -⟩ := h.zPutc hk (Nat.lt_succ_self _) c
    exact ⟨t, _, hrun, hsame, used', ht⟩
  | fflush =>
    obtain ⟨t, hrun, ht, hsame⟩ := Buffered.zFflush hk h.toHeld h.mode
      (show used < s.fp.size.toNat + 1 by omega)
    refine ⟨t, 0, hrun, hsame, 0, ?_⟩
    rw [bytesPut, bytesPut, List.append_nil]
    exact ht

theorem bytesPut_cons (call : Call) (calls : List Call) :
    bytesPut (call :: calls) = bytesPut [call] ++ bytesPut calls := by
  cases call <;> rfl

theorem Buffered.runCalls {k : Kernel} (hk : Accepting k) {m : Mode} {s : ZFile} {used : ℕ}
    {content : List UInt8} (h : Buffered m s used content) (calls : List Call) :
    ∃ t, runCalls k s calls = some t ∧ SameBuffer s t ∧
      ∃ used', Buffered m t used' (content ++ bytesPut calls) := by
  induction calls generalizing s used content with
  | nil =>
    refine ⟨s, rfl, .refl s, used, ?_⟩
    rw [bytesPut, List.append_nil]
    exact h
  | cons call calls ih =>
    obtain ⟨t, ret, hrun, hsame, used', ht⟩ := h.call hk call
    obtain ⟨u, hrest, hsame', used'', hu⟩ := ih ht
    refine ⟨u, ?_, hsame.trans hsame', used'', ?_⟩
    · rw [StreamPut.runCalls, hrun]
      exact hrest
    · rw [bytesPut_cons, ← List.append_assoc]
      exact hu

theorem runCalls_append (k : Kernel) (s : ZFile) (calls more : List Call) :
    runCalls k s (calls ++ more) = (runCalls k s calls).bind fun t => runCalls k t more := by
  induction calls generalizing s with
  | nil => rfl
  | cons call calls ih =>
    rw [List.cons_append, runCalls, runCalls, Option.bind_assoc]
    congr
    funext r
    exact ih r.1

structure Fresh (m : Mode) (s : ZFile) : Prop extends Writes s where
  mode : m.Configures s
  p : s.fp.p = s.fp.base
  w : s.fp.w = 0 ∨ m = .full ∧ s.fp.w = s.fp.size
  output : s.output = []

structure PutContract (s s' : ZFile) (calls : List Call) : Prop where
  base : s'.fp.base = s.fp.base
  size : s'.fp.size = s.fp.size
  lower : s.base ≤ s'.fp.p.toNat
  upper : s'.fp.p.toNat ≤ s.base + s.fp.size.toNat
  bytes : s'.output ++ load s'.mem s.base (s'.fp.p.toNat - s.base) = bytesPut calls
  newline : s.fp.has SLBF = true →
    ∀ earlier c, calls = earlier ++ [.putc c] → lowByte c = newline → s'.fp.p = s.fp.base

theorem Fresh.buffered {m : Mode} {s : ZFile} (h : Fresh m s) : Buffered m s 0 [] := by
  obtain ⟨hsmall, hint⟩ := h.size_small
  have hsize := h.size
  refine ⟨⟨h.toWrites, by rw [h.p]; rfl, Nat.zero_le _, by rw [h.output]; rfl⟩, h.mode, ?_⟩
  rcases h.w with hw | ⟨rfl, hw⟩
  · rw [hw]
    cases m with
    | full => exact .inr ⟨by decide, by decide, show (0 : ℤ) < _ by omega⟩
    | line => rfl
    | unbuffered => exact ⟨rfl, rfl⟩
  · rw [hw]
    exact .inl (Int.add_zero _)

theorem Buffered.contract {k : Kernel} (hk : Accepting k) {m : Mode} {s s' : ZFile} {used : ℕ}
    (hs : Buffered m s 0 []) {calls : List Call} (hrun : StreamPut.runCalls k s calls = some s')
    (hsame : SameBuffer s s') (h : Buffered m s' used (bytesPut calls)) :
    PutContract s s' calls := by
  have hp := h.p
  have hroom := h.room
  have hbase : s'.base = s.base := by rw [ZFile.base, hsame.base, ZFile.base]
  rw [hbase] at hp
  rw [hsame.size] at hroom
  refine ⟨hsame.base, hsame.size, by omega, by omega, ?_, ?_⟩
  · rw [hp, Nat.add_sub_cancel_left, ← hbase]
    exact h.content
  · rintro hl earlier c rfl hc
    obtain ⟨t, hearlier, hsame', used', ht⟩ := hs.runCalls hk earlier
    obtain ⟨u, hput, hsame'', used'', hu, hline⟩ := ht.zPutc hk (Nat.lt_succ_self _) c
    have hlast : StreamPut.runCalls k s (earlier ++ [.putc c]) = some u := by
      rw [runCalls_append, hearlier, Option.bind_some, StreamPut.runCalls, Call.run, hput]
      rfl
    rw [hrun] at hlast
    cases hlast
    have hzero := hline (by rw [hsame'.flags SLBF (by decide)]; exact hl) hc
    apply BitVec.eq_of_toNat_eq
    rw [hu.p, hzero, Nat.add_zero, hbase]
    rfl

/-- Nothing put is lost or doubled, and the buffer does not overflow. -/
theorem puts_reach_descriptor {k : Kernel} (hk : Accepting k) {m : Mode} {s : ZFile}
    (h : Fresh m s) (calls : List Call) :
    ∃ s', runCalls k s calls = some s' ∧ PutContract s s' calls := by
  obtain ⟨s', hrun, hsame, used, hs'⟩ := h.buffered.runCalls hk calls
  exact ⟨s', hrun, h.buffered.contract hk hrun hsame hs'⟩

def fourBytes : ZFile where
  fp := ⟨4096, 0, 0, SWR ||| SLBF, 4096, 4, 0, true⟩
  mem := fun _ => 0
  errno := 0
  turn := 0
  attempts := []
  lbfsize := -4
  output := []

theorem fourBytes_fresh : Fresh .line fourBytes where
  writes := by decide
  notReads := by decide
  notAppends := by decide
  buffer := by decide
  size := by decide
  fits := by decide
  mode := ⟨by decide, by decide⟩
  p := rfl
  w := .inl rfl
  output := rfl

theorem two_lines_put :
    ∃ s', runCalls (fun _ _ => 1) fourBytes [.putc 97, .putc 10, .putc 98, .fflush, .putc 10] =
      some s' ∧ PutContract fourBytes s' [.putc 97, .putc 10, .putc 98, .fflush, .putc 10] :=
  puts_reach_descriptor (fun _ _ hn => ⟨Nat.le_refl 1, hn⟩) fourBytes_fresh _

end StreamPut

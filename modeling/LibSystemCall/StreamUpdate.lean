import LibSystemCall.GuardedSystem
import LibSystemCall.StreamGet

/-! # A stream opened for update

`_z_srefill0` switches a stream to reading, but `_z_swbuf` does not switch it to writing:
`__SWR` stays clear and no flush calls `_write`. -/
namespace StreamUpdate

open GuardedSystem ByteMemory StreamFile StreamFlush StreamPut StreamGet

/-- A call, with what `_seek`, `_write` and `_read` do in it. -/
inductive Event where
  | getc (env : Stdio → ℕ → Response) (result : ReadResult)
  | putc (env : Stdio → ℕ → Response) (c : BitVec 32)
  | fflush (env : Stdio → ℕ → Response)

def Event.call (s : ZFile) : Event → Option (ZFile × ℤ)
  | getc env result => (zGetc env (s.fp.size.toNat + 1) (fun _ _ => ((), result)) () s).map (·.2)
  | putc env c => zPutc env (s.fp.size.toNat + 1) c s
  | fflush env => zFflush env (s.fp.size.toNat + 1) s

/-- `put` are the bytes that `z_putc` has returned; `flushed` says that the last call was a
`_z_fflush` that succeeded. -/
structure State where
  file : ZFile
  put : List UInt8
  flushed : Bool

def Event.puts (ret : ℤ) : Event → List UInt8
  | putc _ c => if ret = EOF then [] else [lowByte c]
  | _ => []

def Event.flushes (ret : ℤ) : Event → Bool
  | fflush _ => ret = 0
  | _ => false

def Enabled (s : State) : Event → Prop
  | .getc _ result => result.bytes.length ≤ s.file.fp.size.toNat
  | _ => True

/-- Every call returns (`calls_return`). -/
def next (s : State) (e : Event) : State :=
  match e.call s.file with
  | none => s
  | some (file, ret) => ⟨file, s.put ++ e.puts ret, e.flushes ret⟩

/-- A buffer that `_p` may point into. -/
structure Buffer (base : BitVec 64) (size : BitVec 32) : Prop where
  nonnull : base ≠ 0
  nonempty : 1 ≤ size.toInt
  fits : base.toNat + size.toNat < 2 ^ 64

structure Opened (base : BitVec 64) (size : BitVec 32) (s : State) : Prop where
  buffer : Buffer base size
  flags : s.file.fp.flags = SRW
  bufBase : s.file.fp.base = base
  bufSize : s.file.fp.size = size
  p : s.file.fp.p = base
  r : s.file.fp.r = 0
  w : s.file.fp.w = 0
  lbfsize : s.file.lbfsize = 0
  output : s.file.output = []
  put : s.put = []
  flushed : s.flushed = false

def updateSystem (base : BitVec 64) (size : BitVec 32) : System State Event :=
  ⟨Opened base size, Enabled, next⟩

structure UpdateContract (base : BitVec 64) (size : BitVec 32) (s : State) : Prop where
  lower : base.toNat ≤ s.file.fp.p.toNat
  upper : s.file.fp.p.toNat ≤ base.toNat + size.toNat
  direction : ¬ (s.file.fp.has SRD = true ∧ s.file.fp.has SWR = true)
  handed : s.flushed = true → s.file.output = s.put

/-- Bytes have been read ahead that a flush would seek back. -/
def ReadAhead (s : ZFile) : Prop := s.fp.has SRD = true ∧ s.fp.seekable = true ∧ s.fp.r ≠ 0

def seekErrno (s : ZFile) (resp : Response) : ℤ :=
  if resp.seekErrno = 0 then s.errno else resp.seekErrno

/-- The seek fails with another errno than `ESPIPE`, and the flush with it. -/
def SeekFails (s : ZFile) (resp : Response) : Prop :=
  resp.seekRet = -1 ∧ seekErrno s resp ≠ ESPIPE

def Yields (s : ZFile) (resp : Response) : Prop :=
  ReadAhead s ∧ (resp.seekRet ≠ -1 ∨ SeekFails s resp)

def HasRoom (s : ZFile) : Prop := s.fp.p.toNat < s.base + s.fp.size.toNat

/-- A put finds room, or a flush that yields; a successful flush comes before the first put. -/
def Safe (s : State) : Event → Prop
  | .getc _ _ => s.file.fp.r.toInt ≤ 0 ∨ HasRoom s.file
  | .putc env _ => HasRoom s.file ∨
      Yields s.file (env (s.file.setW s.file.lbfsize).toStdio s.file.turn)
  | .fflush env => s.put = [] ∨
      ReadAhead s.file ∧ SeekFails s.file (env s.file.toStdio s.file.turn)

structure Update (base : BitVec 64) (size : BitVec 32) (s : ZFile) : Prop
    extends Buffer base size where
  bufBase : s.fp.base = base
  bufSize : s.fp.size = size
  lbfsize : s.lbfsize = 0
  updates : s.fp.has SRW = true
  notWrites : s.fp.has SWR = false
  unlined : s.fp.has (SLBF ||| SNBF) = false
  output : s.output = []

variable {base : BitVec 64} {size : BitVec 32}

def updateFlags : BitVec 16 := readFlags ||| SRD

theorem Update.of_flags {s t : ZFile} (h : Update base size s)
    (hbase : t.fp.base = s.fp.base) (hsize : t.fp.size = s.fp.size)
    (hlbf : t.lbfsize = s.lbfsize) (hout : t.output = s.output)
    (hflags : ∀ q, ~~~updateFlags &&& q = q → t.fp.has q = s.fp.has q) : Update base size t where
  toBuffer := h.toBuffer
  bufBase := hbase.trans h.bufBase
  bufSize := hsize.trans h.bufSize
  lbfsize := hlbf.trans h.lbfsize
  updates := (hflags SRW (by decide)).trans h.updates
  notWrites := (hflags SWR (by decide)).trans h.notWrites
  unlined := (hflags (SLBF ||| SNBF) (by decide)).trans h.unlined
  output := hout.trans h.output

structure Within (s : ZFile) : Prop where
  r : 0 ≤ s.fp.r.toInt
  lower : s.base ≤ s.fp.p.toNat
  upper : s.fp.p.toNat ≤ s.base + s.fp.size.toNat

inductive FlushEnd (s : ZFile) (resp : Response) (t : ZFile) : ℤ → Prop where
  | kept : t.fp.p = s.fp.p → t.fp.r = s.fp.r → ¬ Yields s resp → FlushEnd s resp t 0
  | sought : t.fp.p = s.fp.base → t.fp.r = 0 → resp.seekRet ≠ -1 → FlushEnd s resp t 0
  | failed : t.fp.p = s.fp.p → t.fp.r = s.fp.r → FlushEnd s resp t (-1)

theorem signExtend_pos {r : BitVec 32} : 0 < r.signExtend 64 ↔ r ≠ 0 := by
  have hint : (r.signExtend 64).toInt = r.toInt := BitVec.toInt_signExtend_of_le (by decide)
  have hzero : r.signExtend 64 = 0 ↔ r = 0 := by
    rw [← BitVec.toInt_inj, hint, ← BitVec.toInt_inj]
    rfl
  rw [Ne, ← hzero, BitVec.lt_def, ← BitVec.toNat_inj]
  exact Nat.pos_iff_ne_zero

theorem flushRead_flushed (resp : Response) (s : ZFile) :
    ∃ e fp ret, flushRead resp s.toStdio = ({ s.toStdio with errno := e, fp := fp }, ret) ∧
      FlushEnd s resp { s with errno := e, fp := fp } ret ∧
      ∃ p r f, fp = { s.fp with p := p, r := r, flags := f } ∧
        ∀ q, ~~~updateFlags &&& q = q → f &&& q = s.fp.flags &&& q := by
  have hsame : ∃ p r f, s.fp = { s.fp with p := p, r := r, flags := f } ∧
      ∀ q, ~~~updateFlags &&& q = q → f &&& q = s.fp.flags &&& q :=
    ⟨s.fp.p, s.fp.r, s.fp.flags, rfl, fun _ _ => rfl⟩
  unfold flushRead
  by_cases hseek : s.fp.seekable = true
  · rw [if_neg (not_not_intro hseek)]
    by_cases hr : s.fp.r = 0
    · refine ⟨s.errno, s.fp, 0, if_neg fun h => signExtend_pos.mp h hr, ?_, hsame⟩
      exact .kept rfl rfl fun h => h.1.2.2 hr
    · simp only [if_pos (signExtend_pos.mpr hr)]
      by_cases hret : resp.seekRet = -1
      · rw [if_pos hret]
        by_cases hpipe : seekErrno s resp = ESPIPE
        · refine ⟨seekErrno s resp, s.fp, 0, if_pos hpipe, ?_, hsame⟩
          exact .kept rfl rfl fun h => h.2.elim (fun hne => hne hret) fun hf => hf.2 hpipe
        · exact ⟨seekErrno s resp, s.fp, -1, if_neg hpipe, .failed rfl rfl, hsame⟩
      · refine ⟨seekErrno s resp, { s.fp with p := s.fp.base, r := 0 }.clear SEOF, 0,
          if_neg hret, .sought rfl rfl hret, s.fp.base, 0, _, rfl, fun q hq => ?_⟩
        rw [BitVec.and_assoc, mask_part (by decide) hq]
  · refine ⟨s.errno, s.fp, 0, if_pos hseek, ?_, hsame⟩
    exact .kept rfl rfl fun h => hseek h.1.2.1

theorem zFflush_update {s : ZFile} (h : Update base size s) (env : Stdio → ℕ → Response)
    (fuel : ℕ) :
    ∃ t ret, zFflush env fuel s = some (t, ret) ∧ Update base size t ∧ t.fp.w = s.fp.w ∧
      FlushEnd s (env s.toStdio s.turn) t ret := by
  have hbase : s.fp.base ≠ 0 := by
    rw [h.bufBase]
    exact h.nonnull
  have hgate : s.fp.has (SWR ||| SRW) = true := by
    rw [BitVec.or_comm]
    exact has_union h.updates
  have hlift : ∀ io ret, zSflush (env s.toStdio) fuel s.toStdio = some (io, ret) →
      io.attempts = s.attempts → zFflush env fuel s = some ({ s with toStdio := io }, ret) := by
    intro io ret hrun hlog
    have hnone : s.output ++ taken s.mem (io.attempts.drop s.attempts.length) = s.output := by
      rw [hlog, List.drop_length, show taken s.mem [] = [] from rfl, List.append_nil]
    rw [zFflush, if_pos hgate, ZFile.sflush, hrun, Option.map_some]
    simp only [hnone]
  by_cases hreads : s.fp.has SRD = true
  · obtain ⟨e, fp, ret, hrun, hend, p, r, f, hfp, hf⟩ :=
      flushRead_flushed (env s.toStdio s.turn) s
    refine ⟨{ s with errno := e, fp := fp }, ret, hlift { s.toStdio with errno := e, fp := fp } ret
      ?_ rfl, ?_, by rw [hfp], hend⟩
    · simp only [zSflush, if_neg hbase, if_pos hreads, hrun]
    · refine h.of_flags (by rw [hfp]) (by rw [hfp]) rfl rfl fun q hq => ?_
      rw [hfp]
      exact has_congr (hf q hq)
  · refine ⟨s, 0, hlift s.toStdio 0 ?_ rfl, h, rfl, .kept rfl rfl fun hc => hreads hc.1.1⟩
    simp only [zSflush, if_neg hbase, if_neg hreads, h.notWrites, Bool.false_eq_true, if_false]

theorem FlushEnd.within {s t : ZFile} {resp : Response} {ret : ℤ} (h : FlushEnd s resp t ret)
    (hs : Update base size s) (ht : Update base size t) (hw : Within s) : Within t := by
  have hbase : t.base = s.base := by rw [ZFile.base, ZFile.base, ht.bufBase, hs.bufBase]
  have hsize : t.fp.size = s.fp.size := ht.bufSize.trans hs.bufSize.symm
  have hsame : t.fp.p = s.fp.p → t.fp.r = s.fp.r → Within t := by
    intro hp hr
    exact ⟨by rw [hr]; exact hw.r, by rw [hbase, hp]; exact hw.lower,
      by rw [hbase, hp, hsize]; exact hw.upper⟩
  cases h with
  | kept hp hr _ => exact hsame hp hr
  | sought hp hr _ =>
    have hbot : t.fp.p.toNat = t.base := by
      rw [hp, hbase]
      rfl
    exact ⟨by rw [hr]; decide, by rw [hbot], by rw [hbot]; exact Nat.le_add_right _ _⟩
  | failed hp hr => exact hsame hp hr

structure Idle (base : BitVec 64) (size : BitVec 32) (s : ZFile) : Prop
    extends Update base size s where
  w : s.fp.w = 0 ∨ s.fp.w = -1

theorem Update.setW {s : ZFile} (h : Update base size s) (w : BitVec 32) :
    Update base size (s.setW w) := h.of_flags rfl rfl rfl rfl fun _ _ => rfl

theorem Update.setR {s : ZFile} (h : Update base size s) (r : BitVec 32) :
    Update base size (s.setR r) := h.of_flags rfl rfl rfl rfl fun _ _ => rfl

theorem Update.push {s : ZFile} (h : Update base size s) (c : UInt8) :
    Update base size (s.push c) := h.of_flags rfl rfl rfl rfl fun _ _ => rfl

theorem Update.p_succ {s : ZFile} (h : Update base size s) (hroom : HasRoom s) :
    (s.fp.p + 1).toNat = s.fp.p.toNat + 1 := by
  have hfits := h.fits
  rw [← h.bufBase, ← h.bufSize, ← ZFile.base] at hfits
  unfold HasRoom at hroom
  rw [BitVec.toNat_add_of_lt (by simp; omega)]
  rfl

theorem stuff_update {s : ZFile} (h : Update base size s) (hw : s.fp.w = 0)
    (env : Stdio → ℕ → Response) (fuel : ℕ) (c : UInt8) (n : BitVec 64) :
    ∃ t ret, stuff env fuel c s n = some (t, ret) ∧ Idle base size t ∧
      (Within s → HasRoom s → Within t) := by
  have hpush : Update base size ((s.setW (s.fp.w - 1)).push c) := (h.setW _).push c
  have hwithin : Within s → HasRoom s → Within ((s.setW (s.fp.w - 1)).push c) := by
    intro hs hroom
    unfold HasRoom at hroom
    have hp : ((s.setW (s.fp.w - 1)).push c).fp.p.toNat = s.fp.p.toNat + 1 := h.p_succ hroom
    have hlower := hs.lower
    exact ⟨hs.r, show s.base ≤ _ by omega, show _ ≤ s.base + s.fp.size.toNat by omega⟩
  have hdown : ((s.setW (s.fp.w - 1)).push c).fp.w = -1 := by
    change s.fp.w - 1 = -1
    rw [hw]
    rfl
  obtain ⟨t, ret, hrun, ht, htw, hend⟩ := zFflush_update hpush env fuel
  unfold stuff
  by_cases hflush : n + 1 = s.fp.size.signExtend 64 ∨ s.fp.has SLBF = true ∧ c = newline
  · refine ⟨t, if ret ≠ 0 then EOF else c.toNat, (if_pos hflush).trans ?_,
      ⟨ht, .inr (htw.trans hdown)⟩, fun hs hroom => hend.within hpush ht (hwithin hs hroom)⟩
    rw [hrun]
    rfl
  · exact ⟨_, _, if_neg hflush, ⟨hpush, .inr hdown⟩, hwithin⟩

theorem Update.full_iff {s : ZFile} (h : Update base size s) (hlower : s.base ≤ s.fp.p.toNat) :
    s.fp.p - s.fp.base ≥ s.fp.size.signExtend 64 ↔ s.base + s.fp.size.toNat ≤ s.fp.p.toNat := by
  have hsize : 1 ≤ s.fp.size.toInt := by
    rw [h.bufSize]
    exact h.nonempty
  rw [ge_iff_le, BitVec.le_def, size_signExtend hsize, BitVec.toNat_sub_of_le hlower]
  change _ ≤ s.fp.p.toNat - s.base ↔ _
  omega

theorem Update.size_small {s : ZFile} (h : Update base size s) : s.fp.size.toNat < 2 ^ 31 := by
  rw [h.bufSize]
  exact (StreamPut.size_small h.nonempty).1

theorem Update.size_pos {s : ZFile} (h : Update base size s) : 0 < s.fp.size.toNat := by
  have hsize := h.nonempty
  rw [(StreamPut.size_small h.nonempty).2] at hsize
  rw [h.bufSize]
  omega

theorem zSwbuf_update {s : ZFile} (h : Update base size s) (env : Stdio → ℕ → Response)
    (fuel : ℕ) (c : BitVec 32) :
    ∃ t ret, zSwbuf env fuel c s = some (t, ret) ∧ Idle base size t ∧
      (Within s → HasRoom s ∨ Yields s (env (s.setW s.lbfsize).toStdio s.turn) → Within t) := by
  have hset : Update base size (s.setW s.lbfsize) := h.setW _
  unfold zSwbuf
  by_cases hfull : s.fp.p - s.fp.base ≥ s.fp.size.signExtend 64
  · obtain ⟨t, ret, hrun, ht, htw, hend⟩ := zFflush_update hset env fuel
    have htw' : t.fp.w = 0 := htw.trans h.lbfsize
    by_cases hret : ret = 0
    · obtain ⟨u, ret', hput, hu, hwithin⟩ := stuff_update ht htw' env fuel (lowByte c) 0
      refine ⟨u, ret', (if_pos hfull).trans ?_, hu, fun hs hsafe => ?_⟩
      · rw [hrun]
        exact (if_neg (not_not_intro hret)).trans hput
      · have hfit := (h.full_iff hs.lower).mp hfull
        have hsought := hsafe.resolve_left (Nat.not_lt.mpr hfit)
        have hpos := ht.size_pos
        refine hwithin (hend.within hset ht ⟨hs.r, hs.lower, hs.upper⟩) ?_
        cases hend with
        | kept _ _ hc => exact absurd hsought hc
        | sought hp _ _ =>
          rw [HasRoom, hp, show (s.setW s.lbfsize).fp.base = base from h.bufBase, ZFile.base,
            ht.bufBase]
          omega
        | failed _ _ => exact absurd hret (by decide)
    · refine ⟨t, EOF, (if_pos hfull).trans ?_, ⟨ht, .inl htw'⟩, fun hs _ => ?_⟩
      · rw [hrun]
        exact if_pos hret
      · exact hend.within hset ht ⟨hs.r, hs.lower, hs.upper⟩
  · obtain ⟨u, ret', hput, hu, hwithin⟩ := stuff_update hset h.lbfsize env fuel (lowByte c)
      (s.fp.p - s.fp.base)
    refine ⟨u, ret', (if_neg hfull).trans hput, hu, fun hs _ => ?_⟩
    have hroom := mt (h.full_iff hs.lower).mpr hfull
    exact hwithin ⟨hs.r, hs.lower, hs.upper⟩ (Nat.not_le.mp hroom)

theorem Idle.putc {s : ZFile} (h : Idle base size s) (env : Stdio → ℕ → Response) (c : BitVec 32) :
    ∃ t ret, (Event.putc env c).call s = some (t, ret) ∧ Idle base size t ∧
      (Within s → HasRoom s ∨ Yields s (env (s.setW s.lbfsize).toStdio s.turn) → Within t) := by
  obtain ⟨t, ret, hrun, ht, hwithin⟩ :=
    zSwbuf_update (h.toUpdate.setW (s.fp.w - 1)) env (s.fp.size.toNat + 1) c
  refine ⟨t, ret, (if_neg ?_).trans hrun, ht, fun hs => hwithin ⟨hs.r, hs.lower, hs.upper⟩⟩
  change ¬ (0 ≤ (s.fp.w - 1).toInt ∨ s.lbfsize.toInt ≤ (s.fp.w - 1).toInt ∧ _)
  rw [h.lbfsize]
  rcases h.w with hw | hw
  · rw [hw]
    intro hc
    exact hc.elim (by decide) fun hc => absurd hc.1 (by decide)
  · rw [hw]
    intro hc
    exact hc.elim (by decide) fun hc => absurd hc.1 (by decide)

theorem Idle.fflush {s : ZFile} (h : Idle base size s) (env : Stdio → ℕ → Response) :
    ∃ t ret, (Event.fflush env).call s = some (t, ret) ∧ Idle base size t ∧
      (Within s → Within t) ∧
      (ReadAhead s ∧ SeekFails s (env s.toStdio s.turn) → ret ≠ 0) := by
  obtain ⟨t, ret, hrun, ht, htw, hend⟩ := zFflush_update h.toUpdate env (s.fp.size.toNat + 1)
  refine ⟨t, ret, hrun, ⟨ht, ?_⟩, hend.within h.toUpdate ht, fun hfail => ?_⟩
  · rw [htw]
    exact h.w
  · cases hend with
    | kept _ _ hc => exact absurd ⟨hfail.1, .inr hfail.2⟩ hc
    | sought _ _ hret => exact absurd hfail.2.1 hret
    | failed _ _ => decide

theorem zSrefill0_update {s : ZFile} (h : Update base size s) (env : Stdio → ℕ → Response)
    (fuel : ℕ) :
    ∃ u, (zSrefill0 env fuel s = some (u, -1) ∨ zSrefill0 env fuel s = some (u, 1)) ∧
      Update base size u ∧ u.fp.w = s.fp.w ∧ u.fp.p = s.fp.p ∧ u.fp.r = 0 := by
  have hset := h.setR 0
  by_cases hreads : s.fp.has SRD = true
  · refine ⟨s.setR 0, ?_, hset, rfl, rfl, rfl⟩
    rw [zSrefill0_reads env fuel hreads h.unlined]
    by_cases heof : s.fp.has SEOF = true
    · exact .inl (by rw [if_pos heof])
    · exact .inr (by rw [if_neg heof])
  · by_cases heof : s.fp.has SEOF = true
    · exact ⟨s.setR 0, .inl (if_pos heof), hset, rfl, rfl, rfl⟩
    · have hswitch : Update base size ((s.setR 0).setFlag SRD) :=
        hset.of_flags rfl rfl rfl rfl fun q hq =>
          File.has_set (mask_disjoint (mask_part (by decide) hq))
      refine ⟨(s.setR 0).setFlag SRD, .inr ?_, hswitch, rfl, rfl, rfl⟩
      refine (if_neg heof).trans ((if_neg hreads).trans ?_)
      refine (if_neg (not_not_intro h.updates)).trans ((if_neg ?_).trans ?_)
      · exact Bool.eq_false_iff.mp h.notWrites
      · exact flushLines_unlined env fuel hswitch.unlined

theorem Refilled.update {s t : ZFile} {result : ReadResult} (h : Refilled result s t)
    (hs : Update base size s) : Update base size t := by
  obtain ⟨o, f, hfile, hf⟩ := h.file
  refine hs.of_flags ?_ ?_ h.lbfsize h.output fun q hq => ?_
  · rw [hfile]
  · rw [hfile]
  · exact h.has (mask_part (by decide) hq)

theorem Refilled.within {s t : ZFile} {result : ReadResult} (h : Refilled result s t)
    (hs : Update base size s) (hresult : result.bytes.length ≤ s.fp.size.toNat) :
    (result.bytes = [] → Within t) ∧
      (result.bytes ≠ [] → Within (takeByte (t.setR (t.fp.r - 1))).1) := by
  have ht := Refilled.update h hs
  have hpos := ht.size_pos
  obtain ⟨o, f, hfile, hf⟩ := h.file
  have hsize : t.fp.size = s.fp.size := by rw [hfile]
  have hbot : t.fp.p.toNat = t.base := by
    rw [ZFile.base, hfile]
  have hr : t.fp.r = BitVec.ofNat 32 result.bytes.length := by rw [hfile]
  constructor
  · intro hnil
    exact ⟨by rw [hr, hnil]; decide, by rw [hbot], by rw [hbot]; exact Nat.le_add_right _ _⟩
  · intro hne
    have hlen := List.length_pos_iff.mpr hne
    have hsmall := hs.size_small
    have hint : t.fp.r.toInt = result.bytes.length := by
      rw [hr]
      exact delivered_toInt (by omega)
    have hp : (t.fp.p + 1).toNat = t.fp.p.toNat + 1 :=
      ht.p_succ (show t.fp.p.toNat < t.base + t.fp.size.toNat by omega)
    constructor
    · change 0 ≤ (t.fp.r - 1).toInt
      rw [toInt_pred (by omega)]
      omega
    · change t.base ≤ (t.fp.p + 1).toNat
      omega
    · change (t.fp.p + 1).toNat ≤ t.base + t.fp.size.toNat
      omega

theorem Idle.take {s : ZFile} (h : Idle base size s) (hr : ¬(s.fp.r - 1).toInt < 0) :
    Idle base size (takeByte (s.setR (s.fp.r - 1))).1 ∧
      (Within s → s.fp.r.toInt ≤ 0 ∨ HasRoom s → Within (takeByte (s.setR (s.fp.r - 1))).1) := by
  have hset := h.toUpdate.setR (s.fp.r - 1)
  refine ⟨⟨hset.of_flags rfl rfl rfl rfl fun _ _ => rfl, h.w⟩, ?_⟩
  intro hs hsafe
  have hlower := hs.lower
  have hpos := hs.r
  have hpred := toInt_pred (w := s.fp.r) (by omega)
  have hroom := hsafe.resolve_left (by omega)
  have hp := h.p_succ hroom
  unfold HasRoom at hroom
  constructor
  · change 0 ≤ (s.fp.r - 1).toInt
    omega
  · change s.base ≤ (s.fp.p + 1).toNat
    omega
  · change (s.fp.p + 1).toNat ≤ s.base + s.fp.size.toNat
    omega

theorem Idle.srget {s : ZFile} (h : Idle base size s) (env : Stdio → ℕ → Response)
    {result : ReadResult} (hresult : result.bytes.length ≤ s.fp.size.toNat) :
    ∃ t ret, (zSrget env (s.fp.size.toNat + 1) (fun _ _ => ((), result)) ()
        (s.setR (s.fp.r - 1))).map (·.2) = some (t, ret) ∧ Idle base size t ∧
      (Within s → Within t) := by
  have hset := h.toUpdate.setR (s.fp.r - 1)
  obtain ⟨u, hrun, hu, huw, hup, hur⟩ := zSrefill0_update hset env (s.fp.size.toNat + 1)
  have husize : u.fp.size = s.fp.size := hu.bufSize.trans h.bufSize.symm
  have hubase : u.base = s.base := by rw [ZFile.base, ZFile.base, hu.bufBase, h.bufBase]
  have huidle : u.fp.w = 0 ∨ u.fp.w = -1 := by
    rw [huw]
    exact h.w
  rcases hrun with hrun | hrun
  · refine ⟨u, -1, by rw [zSrget_failed hrun]; rfl, ⟨hu, huidle⟩, ?_⟩
    intro hs
    constructor
    · rw [hur]
      decide
    · rw [hubase, hup]
      exact hs.lower
    · rw [hubase, hup, husize]
      exact hs.upper
  · have hsmall := h.size_small
    obtain ⟨t, ht, hget⟩ := zSrget_refilled hrun (fun _ _ => ((), result)) ()
      (show result.bytes.length < _ by omega)
    have htu := Refilled.update ht hu
    have htw : t.fp.w = 0 ∨ t.fp.w = -1 := by
      obtain ⟨o, f, hfile, hf⟩ := ht.file
      rw [hfile]
      exact huidle
    obtain ⟨hnil, hcons⟩ := Refilled.within ht hu (by rw [husize]; exact hresult)
    rw [hget, Option.map_some]
    by_cases hempty : result.bytes = []
    · exact ⟨t, -1, by simp only [if_pos hempty], ⟨htu, htw⟩, fun _ => hnil hempty⟩
    · have htake : Update base size (takeByte (t.setR (t.fp.r - 1))).1 :=
        (htu.setR (t.fp.r - 1)).of_flags rfl rfl rfl rfl fun _ _ => rfl
      exact ⟨_, (takeByte (t.setR (t.fp.r - 1))).2, congrArg some (if_neg hempty),
        ⟨htake, htw⟩, fun _ => hcons hempty⟩

theorem Idle.getc {s : ZFile} (h : Idle base size s) (env : Stdio → ℕ → Response)
    {result : ReadResult} (hresult : result.bytes.length ≤ s.fp.size.toNat) :
    ∃ t ret, (Event.getc env result).call s = some (t, ret) ∧ Idle base size t ∧
      (Within s → s.fp.r.toInt ≤ 0 ∨ HasRoom s → Within t) := by
  have hcall : (Event.getc env result).call s =
      (zSgetc env (s.fp.size.toNat + 1) (fun _ _ => ((), result)) () s).map (·.2) := rfl
  rw [hcall]
  by_cases hneg : (s.fp.r - 1).toInt < 0
  · have hslow : zSgetc env (s.fp.size.toNat + 1) (fun _ _ => ((), result)) () s =
        zSrget env (s.fp.size.toNat + 1) (fun _ _ => ((), result)) () (s.setR (s.fp.r - 1)) :=
      if_pos hneg
    obtain ⟨t, ret, hrun, ht, hwithin⟩ := h.srget env hresult
    rw [hslow]
    exact ⟨t, ret, hrun, ht, fun hs _ => hwithin hs⟩
  · have hfast : zSgetc env (s.fp.size.toNat + 1) (fun _ _ => ((), result)) () s =
        some ((), takeByte (s.setR (s.fp.r - 1))) := if_neg hneg
    obtain ⟨ht, hwithin⟩ := h.take hneg
    rw [hfast, Option.map_some]
    exact ⟨_, _, rfl, ht, hwithin⟩

theorem Idle.call {s : State} (h : Idle base size s.file) {e : Event} (he : Enabled s e) :
    ∃ t ret, e.call s.file = some (t, ret) ∧ Idle base size t ∧
      (Within s.file → Safe s e → Within t) ∧
      (Safe s e → e.flushes ret = true → s.put ++ e.puts ret = []) := by
  cases e with
  | getc env result =>
    obtain ⟨t, ret, hrun, ht, hwithin⟩ := h.getc env he
    exact ⟨t, ret, hrun, ht, hwithin, fun _ hf => absurd hf Bool.false_ne_true⟩
  | putc env c =>
    obtain ⟨t, ret, hrun, ht, hwithin⟩ := h.putc env c
    exact ⟨t, ret, hrun, ht, hwithin, fun _ hf => absurd hf Bool.false_ne_true⟩
  | fflush env =>
    obtain ⟨t, ret, hrun, ht, hwithin, hfail⟩ := h.fflush env
    refine ⟨t, ret, hrun, ht, fun hs _ => hwithin hs, fun hsafe hf => ?_⟩
    rcases hsafe with hput | hsafe
    · rw [hput]
      rfl
    · exact absurd (of_decide_eq_true hf) (hfail hsafe)

theorem Opened.idle {s : State} (h : Opened base size s) : Idle base size s.file where
  toBuffer := h.buffer
  bufBase := h.bufBase
  bufSize := h.bufSize
  lbfsize := h.lbfsize
  updates := by rw [File.has, h.flags]; decide
  notWrites := by rw [File.has, h.flags]; decide
  unlined := by rw [File.has, h.flags]; decide
  output := h.output
  w := .inl h.w

theorem idle_inductive :
    Inductive (updateSystem base size) anyStep fun s => Idle base size s.file where
  initial s hs := Opened.idle hs
  step s e h he _ := by
    obtain ⟨t, ret, hrun, ht, -, -⟩ := h.call he
    change Idle base size (next s e).file
    rw [next, hrun]
    exact ht

/-- In no run does a byte reach `_write`. -/
theorem nothing_written {s : State} (h : Reachable (updateSystem base size) s) :
    s.file.output = [] ∧ s.file.fp.has SWR = false :=
  ⟨(idle_inductive.reachable h).output, (idle_inductive.reachable h).notWrites⟩

theorem calls_return {s : State} (h : Reachable (updateSystem base size) s) {e : Event}
    (he : Enabled s e) : (e.call s.file).isSome := by
  obtain ⟨t, ret, hrun, -⟩ := (idle_inductive.reachable h).call he
  rw [hrun]
  rfl

structure SafeState (base : BitVec 64) (size : BitVec 32) (s : State) : Prop where
  idle : Idle base size s.file
  within : Within s.file
  handed : s.flushed = true → s.put = []

theorem safe_inductive : Inductive (updateSystem base size) Safe (SafeState base size) where
  initial s hs := by
    refine ⟨Opened.idle hs, ⟨?_, ?_, ?_⟩, fun hf => ?_⟩
    · rw [hs.r]
      decide
    · rw [ZFile.base, hs.p, hs.bufBase]
    · rw [ZFile.base, hs.p, hs.bufBase]
      exact Nat.le_add_right _ _
    · rw [hs.flushed] at hf
      exact absurd hf (by decide)
  step s e h he hsafe := by
    obtain ⟨t, ret, hrun, ht, hwithin, hhanded⟩ := h.idle.call he
    change SafeState base size (next s e)
    rw [next, hrun]
    exact ⟨ht, hwithin h.within hsafe, hhanded hsafe⟩

/-- While every call is safe the stream keeps its buffer and loses no byte in a flush. -/
theorem safe_calls_contract {s : State} (h : ReachableUnder (updateSystem base size) Safe s) :
    UpdateContract base size s := by
  obtain ⟨hidle, hwithin, hhanded⟩ := safe_inductive.reachable h
  have hlower := hwithin.lower
  have hupper := hwithin.upper
  rw [ZFile.base, hidle.bufBase] at hlower hupper
  rw [hidle.bufSize] at hupper
  constructor
  · exact hlower
  · exact hupper
  · intro hboth
    rw [hidle.notWrites] at hboth
    exact absurd hboth.2 (by decide)
  · intro hf
    rw [hidle.output, hhanded hf]

instance (s : State) (e : Event) : Decidable ((updateSystem base size).Enabled s e) := by
  change Decidable (Enabled s e)
  cases e <;> unfold Enabled <;> infer_instance

instance (s : State) (e : Event) : Decidable (Safe s e) := by
  cases e <;> unfold Safe Yields HasRoom ReadAhead SeekFails <;> infer_instance

def opened (size : BitVec 32) : State where
  file :=
    { fp := ⟨4096, 0, 0, SRW, 4096, size, 0, true⟩
      mem := fun _ => 0
      errno := 0
      turn := 0
      attempts := []
      lbfsize := 0
      output := [] }
  put := []
  flushed := false

theorem opened_opened {size : BitVec 32} (h : Buffer 4096 size) :
    Opened 4096 size (opened size) :=
  ⟨h, rfl, rfl, rfl, rfl, rfl, rfl, rfl, rfl, rfl, rfl⟩

def works (_ : Stdio) (_ : ℕ) : Response := ⟨0, 0, .accepted 1⟩

def readThenPut : List Event :=
  [.fflush works, .getc works (.delivered [97, 98]), .putc works 120]

theorem read_then_put_contract :
    (runTrace (updateSystem 4096 2) (opened 2) readThenPut).put = [120] ∧
      UpdateContract 4096 2 (runTrace (updateSystem 4096 2) (opened 2) readThenPut) := by
  refine ⟨by decide, safe_calls_contract (valid_trace_reachable (opened_opened ?_) ?_)⟩
  · exact ⟨by decide, by decide, by decide⟩
  · decide

def afterPuts (events : List Event) : State := runTrace (updateSystem 4096 1) (opened 1) events

/-- The flush does not write the byte, and a second put passes the end of the buffer. -/
theorem put_lost_and_buffer_passed :
    (Reachable (updateSystem 4096 1) (afterPuts [.putc works 97, .fflush works]) ∧
      (afterPuts [.putc works 97, .fflush works]).flushed = true ∧
      (afterPuts [.putc works 97, .fflush works]).put = [97] ∧
      (afterPuts [.putc works 97, .fflush works]).file.output = [] ∧
      ¬ UpdateContract 4096 1 (afterPuts [.putc works 97, .fflush works])) ∧
    Reachable (updateSystem 4096 1) (afterPuts [.putc works 97, .putc works 98]) ∧
      (afterPuts [.putc works 97, .putc works 98]).file.fp.p.toNat = 4096 + 1 + 1 ∧
      ¬ UpdateContract 4096 1 (afterPuts [.putc works 97, .putc works 98]) := by
  have hinit : Opened 4096 1 (opened 1) := opened_opened ⟨by decide, by decide, by decide⟩
  constructor
  · refine ⟨valid_trace_reachable hinit ?_, by decide, by decide, by decide, fun h => ?_⟩
    · decide
    · exact absurd (h.handed (by decide)) (by decide)
  · refine ⟨valid_trace_reachable hinit ?_, by decide, fun h => ?_⟩
    · decide
    · exact absurd h.upper (by decide)

end StreamUpdate

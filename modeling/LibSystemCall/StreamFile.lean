import LibSystemCall.ByteMemory
import Mathlib.Algebra.Group.Int.Defs

/-! # Streams over a descriptor

`_seek` and `_write` of a stream are the environment's: each call of `z_swrite` takes one
response. Pointers are addresses in one memory. -/
namespace StreamFile

open ByteMemory

def SLBF : BitVec 16 := 0x0001
def SNBF : BitVec 16 := 0x0002
def SRD : BitVec 16 := 0x0004
def SWR : BitVec 16 := 0x0008
def SEOF : BitVec 16 := 0x0020
def SERR : BitVec 16 := 0x0040
def SAPP : BitVec 16 := 0x0100
def SOPT : BitVec 16 := 0x0400
def SOFF : BitVec 16 := 0x1000

def OFF_MAX : ℤ := 0x7fffffffffffffff

def EINVAL : ℤ := 22
def ESPIPE : ℤ := 29
def EAGAIN : ℤ := 35

inductive Whence where
  | set
  | cur
  | fromEnd
  deriving DecidableEq

/-- The fields of `struct z_file` that seeking, writing and flushing use. -/
structure File where
  p : BitVec 64
  r : BitVec 32
  w : BitVec 32
  flags : BitVec 16
  base : BitVec 64
  size : BitVec 32
  offset : ℤ
  seekable : Bool

def File.has (fp : File) (mask : BitVec 16) : Bool := fp.flags &&& mask ≠ 0

def File.set (fp : File) (mask : BitVec 16) : File := { fp with flags := fp.flags ||| mask }

def File.clear (fp : File) (mask : BitVec 16) : File := { fp with flags := fp.flags &&& ~~~mask }

inductive WriteResult where
  | failed (errno : ℤ)
  | accepted (count : ℕ)
  deriving DecidableEq

def WriteResult.ret : WriteResult → BitVec 32
  | failed _ => -1
  | accepted count => BitVec.ofNat 32 count

def WriteResult.bytes : WriteResult → ℕ
  | failed _ => 0
  | accepted count => count

/-- What `_seek` returns with the errno it sets (0 when it sets none), and what `_write` does. -/
structure Response where
  seekRet : ℤ
  seekErrno : ℤ
  write : WriteResult

structure Attempt where
  addr : ℕ
  count : ℤ
  result : WriteResult

def Attempt.covers (a : Attempt) (x : ℕ) : Bool :=
  a.addr ≤ x && x < a.addr + a.result.bytes

def accepted (log : List Attempt) (x : ℕ) : Bool := log.any fun a => a.covers x

/-- A stream with the memory of its buffer; `turn` counts the responses taken and
`attempts` is the log of `_write`. -/
structure Stdio where
  fp : File
  mem : Memory
  errno : ℤ
  turn : ℕ
  attempts : List Attempt

def zSseek (resp : Response) (s : Stdio) (offset : ℤ) (whence : Whence) : Stdio × ℤ :=
  let serrno := s.errno
  let ret := resp.seekRet
  let errret := resp.seekErrno
  let s := { s with errno := if errret = 0 then serrno else errret }
  if ret < 0 then
    let s :=
      if errret = 0 then
        let fp := if offset ≠ 0 ∨ whence ≠ .cur then
            { s.fp with p := s.fp.base, r := 0 }.clear SEOF
          else s.fp
        { s with fp := fp.set SERR, errno := EINVAL }
      else if errret = ESPIPE then { s with fp := s.fp.clear SAPP }
      else s
    ({ s with fp := s.fp.clear SOFF }, -1)
  else if s.fp.has SOPT then ({ s with fp := { s.fp.set SOFF with offset := ret } }, ret)
  else (s, ret)

/-- The call of `_write` in `z_swrite`, and the bookkeeping of `_offset` after it. -/
def writeOut (result : WriteResult) (s : Stdio) (buf : BitVec 64) (n : BitVec 32) :
    Stdio × BitVec 32 :=
  let ret := result.ret
  let errno := match result with
    | .failed e => e
    | .accepted _ => s.errno
  let fp :=
    if ret.toInt ≥ 0 then
      if s.fp.flags &&& (SAPP ||| SOFF) = SAPP ||| SOFF ∧ s.fp.offset ≤ OFF_MAX - ret.toInt then
        { s.fp with offset := s.fp.offset + ret.toInt }
      else s.fp.clear SOFF
    else s.fp.clear SOFF
  ({ s with
      fp := fp
      errno := errno
      attempts := s.attempts ++ [⟨buf.toNat, n.toInt, result⟩] }, ret)

def zSwrite (resp : Response) (s : Stdio) (buf : BitVec 64) (n : BitVec 32) :
    Stdio × BitVec 32 :=
  let s := { s with turn := s.turn + 1 }
  if s.fp.has SAPP then
    let serrno := s.errno
    let sought := zSseek resp s 0 .fromEnd
    if sought.2 = -1 ∧ sought.1.fp.has SOPT then (sought.1, -1)
    else writeOut resp.write { sought.1 with errno := serrno } buf n
  else writeOut resp.write s buf n

theorem File.has_clear {fp : File} {mask q : BitVec 16} (h : ~~~mask &&& q = q) :
    (fp.clear mask).has q = fp.has q := by
  unfold File.has File.clear
  rw [BitVec.and_assoc, h]

theorem File.has_set {fp : File} {mask q : BitVec 16} (h : mask &&& q = 0) :
    (fp.set mask).has q = fp.has q := by
  unfold File.has File.set
  rw [BitVec.and_or_distrib_right, h]
  simp

theorem File.has_clear_self {fp : File} {mask : BitVec 16} : (fp.clear mask).has mask = false := by
  unfold File.has File.clear
  simp [BitVec.and_assoc]

theorem File.has_set_self {fp : File} {mask : BitVec 16} (h : mask ≠ 0) :
    (fp.set mask).has mask = true := by
  unfold File.has File.set
  have hmask : (fp.flags ||| mask) &&& mask = mask := by
    ext i
    simp +contextual
  rw [hmask]
  exact decide_eq_true h

/-- A refusal is the failed seek of a stream in append mode: `_write` is not called. -/
inductive Outcome where
  | refused
  | wrote (r : WriteResult)
  deriving DecidableEq

def Outcome.ret : Outcome → BitVec 32
  | refused => -1
  | wrote r => r.ret

def Outcome.value : Outcome → ℤ
  | refused => -1
  | wrote (.failed _) => -1
  | wrote (.accepted count) => count

theorem Outcome.neg_one_le_value (o : Outcome) : -1 ≤ o.value := by
  rcases o with _ | _ | count
  · exact Int.le_refl _
  · exact Int.le_refl _
  · simp only [value]
    omega

theorem Outcome.ret_signExtend {o : Outcome} (h : o.value < 2 ^ 31) :
    o.ret.signExtend 64 = BitVec.ofInt 64 o.value := by
  rcases o with _ | _ | count
  · rfl
  · rfl
  · have hcount : (BitVec.ofNat 32 count).toInt = count := by
      simp only [value] at h
      rw [BitVec.toInt_ofNat', Int.bmod_eq_of_le (by omega) (by omega)]
    simp only [ret, WriteResult.ret, value, BitVec.signExtend, hcount]

def outcomeOf (app opt : Bool) (resp : Response) : Outcome :=
  if app && opt && decide (resp.seekRet < 0) then .refused else .wrote resp.write

/-- A seek that reports `ESPIPE` ends the append mode. -/
def staysAppending (app : Bool) (resp : Response) : Bool :=
  app && !(decide (resp.seekRet < 0) && decide (resp.seekErrno = ESPIPE))

structure Sought (resp : Response) (s s' : Stdio) : Prop where
  base : s'.fp.base = s.fp.base
  p : s.fp.p = s.fp.base → s'.fp.p = s.fp.base
  mem : s'.mem = s.mem
  turn : s'.turn = s.turn
  attempts : s'.attempts = s.attempts
  app : s'.fp.has SAPP = staysAppending (s.fp.has SAPP) resp
  opt : s'.fp.has SOPT = s.fp.has SOPT

theorem zSseek_ret (resp : Response) (s : Stdio) (offset : ℤ) (whence : Whence) :
    (zSseek resp s offset whence).2 = -1 ↔ resp.seekRet < 0 := by
  unfold zSseek
  by_cases hret : resp.seekRet < 0
  · simp [hret]
  · simp only [if_neg hret, apply_ite Prod.snd, ite_self]
    omega

theorem zSseek_sought (resp : Response) (s : Stdio) :
    Sought resp s (zSseek resp s 0 .fromEnd).1 := by
  unfold zSseek
  by_cases hret : resp.seekRet < 0
  · by_cases hzero : resp.seekErrno = 0
    · have hpipe : resp.seekErrno ≠ ESPIPE := by rw [hzero]; decide
      have happ : staysAppending (s.fp.has SAPP) resp = s.fp.has SAPP := by
        simp [staysAppending, hpipe]
      simp only [if_pos hret, if_pos hzero]
      refine ⟨rfl, fun _ => rfl, rfl, rfl, rfl, ?_, ?_⟩
      · rw [happ, File.has_clear (by decide), File.has_set (by decide)]
        exact File.has_clear (by decide)
      · rw [File.has_clear (by decide), File.has_set (by decide)]
        exact File.has_clear (by decide)
    · by_cases hpipe : resp.seekErrno = ESPIPE
      · simp only [if_pos hret, if_neg hzero, if_pos hpipe]
        refine ⟨rfl, id, rfl, rfl, rfl, ?_, ?_⟩
        · rw [File.has_clear (by decide), File.has_clear_self]
          simp [staysAppending, hret, hpipe]
        · rw [File.has_clear (by decide), File.has_clear (by decide)]
      · simp only [if_pos hret, if_neg hzero, if_neg hpipe]
        refine ⟨rfl, id, rfl, rfl, rfl, ?_, File.has_clear (by decide)⟩
        rw [File.has_clear (by decide)]
        simp [staysAppending, hpipe]
  · have happ : staysAppending (s.fp.has SAPP) resp = s.fp.has SAPP := by
      simp [staysAppending, hret]
    by_cases hopt : s.fp.has SOPT
    · simp only [if_neg hret, if_pos hopt]
      refine ⟨rfl, id, rfl, rfl, rfl, ?_, ?_⟩
      · rw [happ]
        exact File.has_set (by decide)
      · exact File.has_set (by decide)
    · simp only [if_neg hret, if_neg hopt]
      exact ⟨rfl, id, rfl, rfl, rfl, happ.symm, rfl⟩

structure Swritten (resp : Response) (s s' : Stdio) (buf : BitVec 64) (n : BitVec 32) : Prop where
  base : s'.fp.base = s.fp.base
  p : s.fp.p = s.fp.base → s'.fp.p = s.fp.base
  mem : s'.mem = s.mem
  turn : s'.turn = s.turn + 1
  app : s'.fp.has SAPP = staysAppending (s.fp.has SAPP) resp
  opt : s'.fp.has SOPT = s.fp.has SOPT
  attempts : s'.attempts = s.attempts ++
    match outcomeOf (s.fp.has SAPP) (s.fp.has SOPT) resp with
    | .refused => []
    | .wrote r => [⟨buf.toNat, n.toInt, r⟩]

theorem writeOut_file (result : WriteResult) (s : Stdio) (buf : BitVec 64) (n : BitVec 32) :
    ∃ o f, (writeOut result s buf n).1.fp = { s.fp with offset := o, flags := f } ∧
      ∀ q, ~~~SOFF &&& q = q → f &&& q = s.fp.flags &&& q := by
  have hclear : ∀ q, ~~~SOFF &&& q = q → (s.fp.flags &&& ~~~SOFF) &&& q = s.fp.flags &&& q := by
    intro q hq
    rw [BitVec.and_assoc, hq]
  unfold writeOut
  simp only
  split
  · split
    · exact ⟨_, s.fp.flags, rfl, fun _ _ => rfl⟩
    · exact ⟨s.fp.offset, _, rfl, hclear⟩
  · exact ⟨s.fp.offset, _, rfl, hclear⟩

theorem writeOut_swritten {resp : Response} {s₀ s : Stdio} (buf : BitVec 64) (n : BitVec 32)
    (hbase : s.fp.base = s₀.fp.base) (hp : s₀.fp.p = s₀.fp.base → s.fp.p = s₀.fp.base)
    (hmem : s.mem = s₀.mem) (hturn : s.turn = s₀.turn + 1) (hlog : s.attempts = s₀.attempts)
    (happ : s.fp.has SAPP = staysAppending (s₀.fp.has SAPP) resp)
    (hopt : s.fp.has SOPT = s₀.fp.has SOPT)
    (hout : outcomeOf (s₀.fp.has SAPP) (s₀.fp.has SOPT) resp = .wrote resp.write) :
    Swritten resp s₀ (writeOut resp.write s buf n).1 buf n := by
  obtain ⟨o, f, hfile, hf⟩ := writeOut_file resp.write s buf n
  refine ⟨by rw [hfile]; exact hbase, by rw [hfile]; exact hp, hmem, hturn, ?_, ?_, ?_⟩
  · rw [hfile, ← happ]
    simp only [File.has, hf SAPP (by decide)]
  · rw [hfile, ← hopt]
    simp only [File.has, hf SOPT (by decide)]
  · rw [hout, ← hlog]
    rfl

theorem zSwrite_swritten (resp : Response) (s : Stdio) (buf : BitVec 64) (n : BitVec 32) :
    Swritten resp s (zSwrite resp s buf n).1 buf n ∧
      (zSwrite resp s buf n).2 = (outcomeOf (s.fp.has SAPP) (s.fp.has SOPT) resp).ret := by
  unfold zSwrite
  by_cases happ : s.fp.has SAPP
  · have h := zSseek_sought resp { s with turn := s.turn + 1 }
    have hret := zSseek_ret resp { s with turn := s.turn + 1 } 0 .fromEnd
    simp only [if_pos happ]
    by_cases hfail : resp.seekRet < 0 ∧ s.fp.has SOPT
    · have hout : outcomeOf (s.fp.has SAPP) (s.fp.has SOPT) resp = .refused := by
        simp [outcomeOf, happ, hfail]
      rw [if_pos ⟨hret.mpr hfail.1, h.opt.trans hfail.2⟩, hout]
      refine ⟨⟨h.base, h.p, h.mem, h.turn, h.app, h.opt, ?_⟩, rfl⟩
      rw [hout, h.attempts, List.append_nil]
    · have hout : outcomeOf (s.fp.has SAPP) (s.fp.has SOPT) resp = .wrote resp.write := by
        simp only [outcomeOf, happ, Bool.true_and, Bool.and_eq_true, decide_eq_true_eq]
        exact if_neg fun h => hfail h.symm
      rw [if_neg fun hc => hfail ⟨hret.mp hc.1, h.opt.symm.trans hc.2⟩, hout]
      exact ⟨writeOut_swritten buf n h.base h.p h.mem h.turn h.attempts h.app h.opt hout, rfl⟩
  · have hout : outcomeOf (s.fp.has SAPP) (s.fp.has SOPT) resp = .wrote resp.write := by
      simp [outcomeOf, happ]
    have hstay : s.fp.has SAPP = staysAppending (s.fp.has SAPP) resp := by
      simp [staysAppending, happ]
    rw [if_neg happ, hout]
    exact ⟨writeOut_swritten buf n rfl id rfl rfl rfl hstay rfl hout, rfl⟩

end StreamFile

import LibSystemCall.HeapLedger
import LibSystemCall.PrintCalls
import LibSystemCall.StringSignal
import LibSystemCall.SyscallErrors

/-! # z_strerror, z_strsignal and z_perror

They tell about errno, and can change it themselves. A text that is not a literal is in a buffer
of its own kind, which is mapped once and written anew each time. The prints go through
`PrintBuffer.zWrite`: every `z_write` of theirs succeeds and takes all of its bytes. -/
namespace ErrorReport

open ByteMemory StructLayout ThreadRecord ErrnoCell SyscallErrors PrintBuffer PrintFormat PrintCalls
open DirentDevname (Object zStrncpy)
open StringCopy (text objectOf)
open StringError (UPREFIX Known message printed zSysNerr zStrerrorR)
open StringSignal (zStrsignalR signalName)

def NL_TEXTMAX : ℕ := 2048

/-- `20 + 2 + sizeof(UPREFIX)` -/
def EBUFSIZE : ℕ := 36

def EINVAL : BitVec 32 := 22

/-- `__strerror_ebuf`, `__strsignal_ebuf` and the print buffer; `texts` is ghost, the strings that
have been returned, as they were at the return. -/
structure State extends World where
  strerrorEbuf : ℕ
  strsignalEbuf : ℕ
  out : PrintState
  texts : List (Option (List UInt8))

/-- The reply of the kernel, and those to the calls of `z_pthread_canceled` in `z_cerror`. -/
structure KernelCall where
  unixConforming : Bool
  inner : List Reply
  reply : Reply

/-- There is no result when the thread is cancelled in the call. -/
def KernelCall.run (c : KernelCall) (w : World) : Option (World × BitVec 64) :=
  match zSyscallUnix c.unixConforming c.inner w c.reply with
  | some (.returned w result, _) => some (w, result)
  | _ => none

/-- `if (ebuf == Z_NULL) ebuf = z_malloc(NL_TEXTMAX);` -/
def textBuffer (c : KernelCall) (ebuf : ℕ) (w : World) : Option (World × ℕ) :=
  if ebuf = 0 then
    (c.run w).map fun (w, p) =>
      let (a, mem) := HeapLedger.zMalloc p.toNat NL_TEXTMAX w.mem
      ({ w with mem }, a)
  else some (w, ebuf)

def objectAt (m : Memory) (a : ℕ) : Object := ⟨fun i => m (a + i), []⟩

def putBack (m : Memory) (a : ℕ) (o : Object) : Memory :=
  fun x => if a ≤ x ∧ x - a ∈ o.written then o.bytes (x - a) else m x

/-- What `z_strerror` and `z_strsignal` do with their buffers, where `fill` is `z_strerror_r` or
`z_strsignal_r`. The result is the buffer, 0 for none, and the bytes in it. -/
def bufferedText (c : KernelCall) (fill : ℕ → Object → Option (ℤ × Object)) (ebuf : ℕ)
    (w : World) : Option (World × ℕ × List UInt8) :=
  (textBuffer c ebuf w).bind fun (w, ebuf) =>
    if ebuf = 0 then some (w, 0, [])
    else
      (fill ebuf (objectAt w.mem ebuf)).map fun (ret, o) =>
        let w := { w with mem := putBack w.mem ebuf o }
        let w := if ret ≠ 0 then assignErrno w EINVAL else w
        (w, ebuf, load w.mem ebuf NL_TEXTMAX)

def fillError (num : BitVec 32) (ebuf : ℕ) (o : Object) : Option (ℤ × Object) :=
  (zStrerrorR NL_TEXTMAX num (BitVec.ofNat 64 ebuf) o (BitVec.ofNat 32 NL_TEXTMAX)).map
    fun r => (r.ret, r.buf)

def fillSignal (num : BitVec 32) (ebuf : ℕ) (o : Object) : Option (ℤ × Object) :=
  (zStrsignalR num (BitVec.ofNat 64 ebuf) o (BitVec.ofNat 32 EBUFSIZE)).map
    fun r => (r.ret, r.buf)

/-- The result is what there is to read at the pointer that is returned. -/
def zStrerror (c : KernelCall) (num : BitVec 32) (s : State) : Option (State × List UInt8) :=
  if 0 ≤ num.toInt ∧ num.toInt < zSysNerr then some (s, message num ++ [0])
  else
    (bufferedText c (fillError num) s.strerrorEbuf s.toWorld).map fun (w, ebuf, bytes) =>
      ({ s with toWorld := w, strerrorEbuf := ebuf }, bytes)

def zStrsignal (c : KernelCall) (num : BitVec 32) (s : State) : Option (State × List UInt8) :=
  (bufferedText c (fillSignal num) s.strsignalEbuf s.toWorld).map fun (w, ebuf, bytes) =>
    ({ s with toWorld := w, strsignalEbuf := ebuf }, bytes)

/-- A pointer; `%s` does not look at its address. -/
def pointerTo (bytes : List UInt8) : VaArg := ⟨0, bytes⟩

/-- `str` is what there is at the argument. -/
def zPerror (c : KernelCall) (str : List UInt8) (s : State) : Option State :=
  (zStrerror c ((readErrno s.toWorld).setWidth 32) s).bind fun (s, error) =>
    (zPrintf s.out (text "%s: %s\n" ++ [0]) [pointerTo str, pointerTo error]).map fun out =>
      { s with out }

/-- What a thread does between two reports: other system calls, other output, and stores. -/
inductive Event where
  | call (c : KernelCall)
  | strerror (num : BitVec 32) (c : KernelCall)
  | strsignal (num : BitVec 32) (c : KernelCall)
  | perror (str : List UInt8) (c : KernelCall)
  | print (p : Call)
  | store (f : Memory → Memory)

def State.returning (s : State) (bytes : List UInt8) : State :=
  { s with texts := s.texts ++ [cString bytes] }

def step (s : State) : Event → Option State
  | .call c => (c.run s.toWorld).map fun (w, _) => { s with toWorld := w }
  | .strerror num c => (zStrerror c num s).map fun (s, bytes) => s.returning bytes
  | .strsignal num c => (zStrsignal c num s).map fun (s, bytes) => s.returning bytes
  | .perror str c => zPerror c str s
  | .print p => (p.run s.out).map fun out => { s with out }
  | .store f => some { s with mem := f s.mem }

def run : State → List Event → Option State
  | s, [] => some s
  | s, e :: es => (step s e).bind fun s => run s es

structure Report where
  errno : BitVec 32
  errorBuffer : Bool
  signalBuffer : Bool
  written : List (ℤ × UInt8)
  pending : List UInt8
  texts : List (Option (List UInt8))

def KernelCall.errno (c : KernelCall) (old : BitVec 32) : BitVec 32 :=
  match c.reply with
  | .ok _ => old
  | .error e => e

/-- The name alone; the number of the least int has no digits. -/
def signalText (num : BitVec 32) : Option (List UInt8) :=
  if num.toInt = -2 ^ 31 then none else some (signalName num)

def line (str error : Option (List UInt8)) : Option (List UInt8) :=
  str.bind fun u => error.map fun v => u ++ text ": " ++ v ++ text "\n"

def view (t : ℕ) (s : State) : Report where
  errno := loadWord 32 s.mem (errnoAddr t)
  errorBuffer := decide (s.strerrorEbuf ≠ 0)
  signalBuffer := decide (s.strsignalEbuf ≠ 0)
  written := s.out.written
  pending := pending s.out
  texts := s.texts

/-- Room for a text, not on the first page and apart from the record at `t`. -/
def Mapped (t a : ℕ) : Prop :=
  4096 ≤ a ∧ a + NL_TEXTMAX ≤ 2 ^ 64 ∧ (a + NL_TEXTMAX ≤ t ∨ t + threadShape.bytes ≤ a)

/-- The two words of the record that errno depends on. -/
def Spares (t : ℕ) (m m' : Memory) : Prop :=
  loadWord 32 m' (errnoAddr t) = loadWord 32 m (errnoAddr t) ∧
    loadWord 64 m' (t + threadShape.offset .tsd + tsdErrno * 8) =
      loadWord 64 m (t + threadShape.offset .tsd + tsdErrno * 8)

def KernelCall.MapsFor (c : KernelCall) (t : ℕ) : Prop :=
  ∀ p, c.reply = .ok p → p = 0 ∨ p = -1 ∨ Mapped t p.toNat

def Fits (t : ℕ) : Event → Prop
  | .strerror _ c | .strsignal _ c | .perror _ c => c.MapsFor t
  | .store f => ∀ m, Spares t m (f m)
  | .call _ | .print _ => True

structure Reported (t : ℕ) (s : State) : Prop where
  owns : OwnsErrno s.toWorld t
  error : s.strerrorEbuf = 0 ∨ Mapped t s.strerrorEbuf
  signal : s.strsignalEbuf = 0 ∨ Mapped t s.strsignalEbuf

section Calls

variable {w : World} {t : ℕ} {c : KernelCall}

def KernelCall.after (c : KernelCall) (w : World) : World :=
  match c.reply with
  | .ok _ => w
  | .error e => (zCerrorNocancel w e).1

end Calls

section Stores

variable {m m' : Memory} {t a : ℕ}

theorem Spares.owns {w : World} (h : OwnsErrno w t) (hm : Spares t w.mem m') :
    OwnsErrno { w with mem := m' } t where
  base := h.base
  slot := by
    rw [← h.slot]
    unfold zTsdGetDirect
    rw [h.base]
    exact hm.2
  fits := h.fits

end Stores

section Buffers

variable {w : World} {t ebuf : ℕ} {c : KernelCall}

structure Filled (u : List UInt8) (o : Object) : Prop where
  string : CStringAt o.bytes 0 u
  fits : u.length < NL_TEXTMAX
  stored : ∀ i ≤ u.length, i ∈ o.written
  inside : ∀ i ∈ o.written, i < NL_TEXTMAX

/-- `fill` writes `u` into any buffer, with a result that is not 0, or it has no result. -/
def Fills (fill : ℕ → Object → Option (ℤ × Object)) : Option (List UInt8) → Prop
  | none => ∀ ebuf o, fill ebuf o = none
  | some u => ∀ ebuf mem, 4096 ≤ ebuf → ebuf < 2 ^ 64 →
      ∃ ret o, fill ebuf ⟨mem, []⟩ = some (ret, o) ∧ ret ≠ 0 ∧ Filled u o

end Buffers

section Runs

variable {s : State} {t : ℕ}

/-- The code's step has come to an end where the report says so or the thread is cancelled, or
both go on, to the same report. -/
def Agree (t : ℕ) (plain : Prop) (o : Option State) (r : Option Report) : Prop :=
  (o = none ∧ (plain → r = none)) ∨ ∃ s', o = some s' ∧ r = some (view t s') ∧ Reported t s'

end Runs

end ErrorReport

import LibSystemCall.GuardedSystem
import Mathlib.Data.Nat.Notation
import Mathlib.Data.Fintype.Basic
import Mathlib.Logic.Function.Basic
import Mathlib.Tactic.SplitIfs

/-! # Exit, join and detach of z_pthread.c

A target thread in `z_pthread_terminate` and clients in `z_pthread_join` or
`z_pthread_detach` on it. An event is one access of the target's record or of a join context,
or one wait or wake on `tl_exit_gate`; a field that no thread writes is read with the access
after it. `z_pthread_conformance` is never cancelable, so `z_pthread_joiner_abort_wait` is not
reached, and every `custom_stack_sema` is null. -/
namespace ThreadJoin

open GuardedSystem

abbrev Port := BitVec 32

/-- `((z_uint32)~0)` -/
def machPortDead : Port := ~~~0

def EINVAL : ℕ := 22
def EDEADLK : ℕ := 11

/-- What stays fixed: the target, its port and the value it exits with. -/
structure Config where
  self : ℕ
  isMain : Bool
  kport : Port
  exitValue : BitVec 64
  unixConforming : Bool
  pageSize : ℕ
  stackaddr : ℕ
  stacksize : ℕ
  currentStack : ℕ
  port_ne_zero : kport ≠ 0
  port_ne_dead : kport ≠ machPortDead

/-- The fields of the target's `struct z_pthread_t` that exit, join and detach share. -/
structure Record (ι : Type*) where
  tlJoinCtx : Option ι
  tlExitValue : BitVec 64
  tlJoinable : Bool
  tlJoinerCleansUp : Bool
  tlExitGate : Port
  freeaddr : ℕ
  freesize : ℕ

/-- A client's `struct z_pthread_join_context_s`: whether `value_ptr` is set, and `detached`. -/
structure JoinContext where
  valuePtr : Bool
  detached : Bool

/-- Everything the threads share. `out` is `*value_ptr`, `released` the ranges unmapped. -/
structure Shared (ι : Type*) where
  record : Record ι
  ctx : ι → JoinContext
  out : ι → Option (BitVec 64)
  released : List (ℕ × ℕ)

def truncPage (cfg : Config) (x : ℕ) : ℕ := x - x % cfg.pageSize

def cancelEnable : BitVec 32 := 0x01
def cancelPending : BitVec 32 := 0x10
def pthreadCanceled : BitVec 64 := 1

/-- The load of `cancel_state` is commented out. -/
def zPthreadIsCanceled : Bool :=
  let flags := cancelEnable ||| cancelPending
  let state : BitVec 32 := 0
  state &&& flags == flags

def zPthreadGetExitValue {ι : Type*} (cfg : Config) (r : Record ι) : BitVec 64 :=
  if cfg.unixConforming && zPthreadIsCanceled then pthreadCanceled else r.tlExitValue

/-- Inside `z_pthread_joiner_prepost_wake`, with the local `ctx`. -/
inductive Prepost (ι : Type*) where
  | loadCtx
  | testJoinable (ctx : ι)
  | unsetJoinable (ctx : ι)
  | setDetached (ctx : ι)
  | unlink (ctx : ι)
  | copyValue (ctx : ι)
  deriving DecidableEq, Repr

inductive Outcome (α : Type*) where
  | proceed (a : α)
  | finish
  | fault
  deriving DecidableEq, Repr

section

variable {ι : Type*}

def Shared.release (m : Shared ι) (addr size : ℕ) : Shared ι :=
  { m with released := m.released ++ [(addr, size)] }

@[simp] theorem Shared.release_record (m : Shared ι) (addr size : ℕ) :
    (m.release addr size).record = m.record := rfl

variable [DecidableEq ι]

def Shared.setGate (m : Shared ι) (gate : Port) : Shared ι :=
  { m with record := { m.record with tlExitGate := gate } }

def Shared.setCtx (m : Shared ι) (c : Option ι) : Shared ι :=
  { m with record := { m.record with tlJoinCtx := c } }

def Shared.setJoinable (m : Shared ι) (b : Bool) : Shared ι :=
  { m with record := { m.record with tlJoinable := b } }

def Shared.setCleansUp (m : Shared ι) : Shared ι :=
  { m with record := { m.record with tlJoinerCleansUp := true } }

def Shared.setExitValue (m : Shared ι) (v : BitVec 64) : Shared ι :=
  { m with record := { m.record with tlExitValue := v } }

def Shared.setDetached (m : Shared ι) (c : ι) : Shared ι :=
  { m with ctx := Function.update m.ctx c { m.ctx c with detached := true } }

def Shared.storeOut (cfg : Config) (m : Shared ι) (c : ι) : Shared ι :=
  { m with out := Function.update m.out c (some (zPthreadGetExitValue cfg m.record)) }

def Shared.newCtx (m : Shared ι) (i : ι) (valuePtr : Bool) : Shared ι :=
  { m with ctx := Function.update m.ctx i ⟨valuePtr, false⟩, out := Function.update m.out i none }

@[simp] theorem Shared.storeOut_record (cfg : Config) (m : Shared ι) (c : ι) :
    (m.storeOut cfg c).record = m.record := rfl

@[simp] theorem Shared.storeOut_ctx (cfg : Config) (m : Shared ι) (c : ι) :
    (m.storeOut cfg c).ctx = m.ctx := rfl

@[simp] theorem Shared.storeOut_self (cfg : Config) (m : Shared ι) (c : ι) :
    (m.storeOut cfg c).out c = some (zPthreadGetExitValue cfg m.record) := by
  simp [Shared.storeOut]

@[simp] theorem Shared.setDetached_valuePtr (m : Shared ι) (c i : ι) :
    ((m.setDetached c).ctx i).valuePtr = (m.ctx i).valuePtr := by
  by_cases h : i = c <;> simp [Shared.setDetached, h]

@[simp] theorem Shared.newCtx_record (m : Shared ι) (i : ι) (valuePtr : Bool) :
    (m.newCtx i valuePtr).record = m.record := rfl

def prepostStep (cfg : Config) (m : Shared ι) : Prepost ι → Shared ι × Outcome (Prepost ι)
  | .loadCtx =>
    match m.record.tlJoinCtx with
    | none => (m, .fault)
    | some c => (m, .proceed (.testJoinable c))
  | .testJoinable c =>
    (m, .proceed (if m.record.tlJoinable then .unsetJoinable c else .setDetached c))
  | .unsetJoinable c => (m.setJoinable false, .proceed (.copyValue c))
  | .setDetached c => (m.setDetached c, .proceed (.unlink c))
  | .unlink c => (m.setCtx none, .proceed (.copyValue c))
  | .copyValue c => (if (m.ctx c).valuePtr then m.storeOut cfg c else m, .finish)

end

inductive TargetPlace (ι : Type*) where
  | running
  | split
  | storeGate
  | storeValue
  | testCtx
  | prepost (p : Prepost ι)
  | testJoinable
  | setKeep
  | wake
  | retestCtx
  | setKeepAfterWake
  | terminate
  | done
  | fault
  deriving DecidableEq, Repr

structure Locals where
  freeaddr : ℕ
  freesize : ℕ
  freesizeStack : ℕ
  keepThreadStruct : Bool
  needsWake : Bool

inductive ClientPlace (ι : Type*) where
  | idle
  | joinTestJoinable
  | joinTestCtx
  | joinTestSelf
  | joinTestGate
  | joinUnsetJoinable
  | joinCopyValue
  | storeGate
  | storeCtx
  | readGate
  | wait
  | asleep
  | testDetached
  | clearCtx
  | readCleansUp
  | deallocate
  | unmap (addr size : ℕ)
  | detachTestJoinable
  | detachTestGate
  | detachUnsetJoinable
  | detachTestCtx
  | prepost (p : Prepost ι)
  | wake (res : ℕ)
  | returned (res : ℕ)
  | fault
  deriving DecidableEq, Repr

structure State (ι : Type*) where
  mem : Shared ι
  target : TargetPlace ι
  locals : Locals
  client : ι → ClientPlace ι
  detaching : ι → Bool

inductive Event (ι : Type*) where
  | startJoin (i : ι) (valuePtr : Bool)
  | startDetach (i : ι)
  | targetRun
  | targetWake (woken : Option ι)
  | run (i : ι)
  | deadlock (i : ι)
  | sleep (i : ι)
  | waitReturns (i : ι)
  | wake (i : ι) (woken : Option ι)
  deriving DecidableEq, Repr

variable {ι : Type*}

/-- The first lines of `z_pthread_terminate`: the locals, and the record cut down to the pages
from the structure on. -/
def enterTerminate (cfg : Config) (r : Record ι) : Locals × Record ι :=
  if r.freeaddr < cfg.self ∧ cfg.self < r.freeaddr + r.freesize then
    let stack := truncPage cfg (cfg.self - r.freeaddr)
    (⟨r.freeaddr, r.freesize, stack, false, false⟩,
      { r with freeaddr := r.freeaddr + stack, freesize := r.freesize - stack })
  else if cfg.isMain then
    let freeaddr := cfg.stackaddr - cfg.stacksize
    (⟨freeaddr, r.freesize, truncPage cfg cfg.currentStack - freeaddr, false, false⟩, r)
  else (⟨r.freeaddr, r.freesize, 0, false, false⟩, r)

theorem enterTerminate_fields (cfg : Config) (r : Record ι) :
    (enterTerminate cfg r).2.tlExitGate = r.tlExitGate ∧
      (enterTerminate cfg r).2.tlJoinCtx = r.tlJoinCtx ∧
      (enterTerminate cfg r).2.tlJoinable = r.tlJoinable ∧
      (enterTerminate cfg r).2.tlJoinerCleansUp = r.tlJoinerCleansUp := by
  unfold enterTerminate
  split_ifs <;> exact ⟨rfl, rfl, rfl, rfl⟩

theorem enterTerminate_locals (cfg : Config) (r : Record ι) :
    (enterTerminate cfg r).1.keepThreadStruct = false ∧
      (enterTerminate cfg r).1.needsWake = false := by
  unfold enterTerminate
  split_ifs <;> exact ⟨rfl, rfl⟩

def terminateRange (cfg : Config) (l : Locals) : ℕ × ℕ :=
  let freesize := if l.keepThreadStruct || cfg.isMain then l.freesizeStack else l.freesize
  (if freesize = 0 then 0 else l.freeaddr, freesize)

def afterList (l : Locals) : TargetPlace ι := if l.needsWake then .wake else .terminate

/-- At `z_pthread_joiner_wake`, with what the detach returns behind it. -/
def ClientPlace.waking : ClientPlace ι → Option ℕ
  | .wake res => some res
  | _ => none

theorem waking_isSome {p : ClientPlace ι} (h : p.waking.isSome = true) : ∃ res, p = .wake res := by
  cases p with
  | wake res => exact ⟨res, rfl⟩
  | _ => cases h

variable [DecidableEq ι]

def targetStep (cfg : Config) (s : State ι) : State ι :=
  match s.target with
  | .running => { s with target := .split }
  | .split =>
    let (l, r) := enterTerminate cfg s.mem.record
    { s with locals := l, mem := { s.mem with record := r }, target := .storeGate }
  | .storeGate => { s with mem := s.mem.setGate 0, target := .storeValue }
  | .storeValue => { s with mem := s.mem.setExitValue cfg.exitValue, target := .testCtx }
  | .testCtx =>
    { s with target := if s.mem.record.tlJoinCtx.isSome then .prepost .loadCtx else .testJoinable }
  | .prepost p =>
    match prepostStep cfg s.mem p with
    | (m, .proceed q) => { s with mem := m, target := .prepost q }
    | (m, .finish) =>
      { s with mem := m, locals := { s.locals with needsWake := true }, target := .testJoinable }
    | (m, .fault) => { s with mem := m, target := .fault }
  | .testJoinable =>
    { s with target := if s.mem.record.tlJoinable then .setKeep else afterList s.locals }
  | .setKeep =>
    { s with
      mem := s.mem.setCleansUp
      locals := { s.locals with keepThreadStruct := true }
      target := afterList s.locals }
  | .retestCtx =>
    { s with
      target := if s.mem.record.tlJoinCtx.isSome then .setKeepAfterWake else .terminate }
  | .setKeepAfterWake =>
    { s with
      mem := s.mem.setCleansUp
      locals := { s.locals with keepThreadStruct := true }
      target := .terminate }
  | .terminate =>
    let (addr, size) := terminateRange cfg s.locals
    { s with mem := s.mem.release addr size, target := .done }
  | .wake | .done | .fault => s

theorem targetStep_client (cfg : Config) (s : State ι) : (targetStep cfg s).client = s.client := by
  unfold targetStep
  cases s.target <;> try rfl
  case prepost p => dsimp only; split <;> rfl

def State.go (s : State ι) (i : ι) (p : ClientPlace ι) : State ι :=
  { s with client := Function.update s.client i p }

/-- A join called by `z_pthread_detach` hands its result to nobody. -/
def State.finish (s : State ι) (i : ι) (res : ℕ) : State ι :=
  s.go i (.returned (if s.detaching i then 0 else res))

section Places

variable (s : State ι) (i : ι) (p : ClientPlace ι) (res : ℕ)

@[simp] theorem State.go_self : (s.go i p).client i = p := by simp [State.go]
@[simp] theorem State.go_mem : (s.go i p).mem = s.mem := rfl
@[simp] theorem State.go_target : (s.go i p).target = s.target := rfl
@[simp] theorem State.go_locals : (s.go i p).locals = s.locals := rfl
@[simp] theorem State.go_detaching : (s.go i p).detaching = s.detaching := rfl

@[simp] theorem State.finish_self :
    (s.finish i res).client i = .returned (if s.detaching i then 0 else res) := s.go_self i _
@[simp] theorem State.finish_mem : (s.finish i res).mem = s.mem := rfl
@[simp] theorem State.finish_target : (s.finish i res).target = s.target := rfl
@[simp] theorem State.finish_locals : (s.finish i res).locals = s.locals := rfl
@[simp] theorem State.finish_detaching : (s.finish i res).detaching = s.detaching := rfl

end Places

def clientStep (cfg : Config) (s : State ι) (i : ι) : State ι :=
  let r := s.mem.record
  match s.client i with
  | .joinTestJoinable => if r.tlJoinable then s.go i .joinTestCtx else s.finish i EINVAL
  | .joinTestCtx => if r.tlJoinCtx.isSome then s.finish i EINVAL else s.go i .joinTestSelf
  | .joinTestSelf => s.go i .joinTestGate
  | .joinTestGate =>
    s.go i (if r.tlExitGate = machPortDead then .joinUnsetJoinable else .storeGate)
  | .joinUnsetJoinable => { s with mem := s.mem.setJoinable false }.go i .joinCopyValue
  | .joinCopyValue =>
    { s with
      mem := if (s.mem.ctx i).valuePtr then s.mem.storeOut cfg i else s.mem }.go i .deallocate
  | .storeGate => { s with mem := s.mem.setGate cfg.kport }.go i .storeCtx
  | .storeCtx => { s with mem := s.mem.setCtx (some i) }.go i .readGate
  | .readGate =>
    s.go i (if r.tlExitGate = machPortDead then .testDetached
      else if r.tlExitGate ≠ cfg.kport then .testDetached
      else .wait)
  | .testDetached => if (s.mem.ctx i).detached then s.finish i 0 else s.go i .clearCtx
  | .clearCtx => { s with mem := s.mem.setCtx none }.go i .readCleansUp
  | .readCleansUp => if r.tlJoinerCleansUp then s.go i .deallocate else s.finish i 0
  | .deallocate => if cfg.isMain then s.finish i 0 else s.go i (.unmap r.freeaddr r.freesize)
  | .unmap addr size => { s with mem := s.mem.release addr size }.finish i 0
  | .detachTestJoinable => if r.tlJoinable then s.go i .detachTestGate else s.go i (.wake EINVAL)
  | .detachTestGate =>
    if r.tlExitGate = machPortDead then
      { s with mem := s.mem.newCtx i false }.go i .joinTestJoinable
    else s.go i .detachUnsetJoinable
  | .detachUnsetJoinable => { s with mem := s.mem.setJoinable false }.go i .detachTestCtx
  | .detachTestCtx => s.go i (if r.tlJoinCtx.isSome then .prepost .loadCtx else .wake 0)
  | .prepost p =>
    match prepostStep cfg s.mem p with
    | (m, .proceed q) => { s with mem := m }.go i (.prepost q)
    | (m, .finish) => { s with mem := m }.go i (.wake 0)
    | (m, .fault) => { s with mem := m }.go i .fault
  | .idle | .wait | .asleep | .wake _ | .returned _ | .fault => s

theorem clientStep_target (cfg : Config) (s : State ι) (i : ι) :
    (clientStep cfg s i).target = s.target ∧ (clientStep cfg s i).locals = s.locals := by
  unfold clientStep
  cases s.client i <;> dsimp only
  case prepost p =>
    generalize prepostStep cfg s.mem p = r
    obtain ⟨m, _ | _ | _⟩ := r <;> exact ⟨rfl, rfl⟩
  all_goals first | exact ⟨rfl, rfl⟩ | (split_ifs <;> exact ⟨rfl, rfl⟩)

theorem prepost_gate (cfg : Config) (m : Shared ι) (p : Prepost ι) :
    (prepostStep cfg m p).1.record.tlExitGate = m.record.tlExitGate := by
  cases p with
  | loadCtx => simp only [prepostStep]; split <;> rfl
  | copyValue c => simp only [prepostStep]; split <;> rfl
  | _ => rfl

theorem clientStep_gate (cfg : Config) (s : State ι) (i : ι) :
    (clientStep cfg s i).mem.record.tlExitGate = cfg.kport ∨
      (clientStep cfg s i).mem.record.tlExitGate = s.mem.record.tlExitGate := by
  unfold clientStep
  cases s.client i <;> dsimp only
  case storeGate => exact .inl rfl
  case prepost p =>
    have hg := prepost_gate cfg s.mem p
    generalize prepostStep cfg s.mem p = r at hg
    obtain ⟨m, _ | _ | _⟩ := r <;> exact .inr hg
  all_goals first | exact .inr rfl | (right; split_ifs <;> rfl)

def WakesOne (s : State ι) : Option ι → Prop
  | some j => s.client j = .asleep
  | none => ∀ j, s.client j ≠ .asleep

def State.wake (s : State ι) : Option ι → State ι
  | some j => s.go j .readGate
  | none => s

def TargetPlace.runs : TargetPlace ι → Bool
  | .wake | .done | .fault => false
  | _ => true

def ClientPlace.runs : ClientPlace ι → Bool
  | .idle | .wait | .asleep | .wake _ | .returned _ | .fault => false
  | _ => true

def ClientPlace.outside : ClientPlace ι → Bool
  | .idle | .returned _ => true
  | _ => false

/-- The kernel sleeps only on the value that was passed. A wait may also return at once or be
interrupted; `z_pthread_joiner_wake` repeats an interrupted wake. -/
def Enabled (cfg : Config) (s : State ι) : Event ι → Prop
  | .startJoin i _ | .startDetach i => (s.client i).outside = true
  | .targetRun => s.target.runs = true
  | .targetWake woken => s.target = .wake ∧ WakesOne s woken
  | .run i => (s.client i).runs = true
  | .deadlock i => s.client i = .joinTestSelf
  | .sleep i => s.client i = .wait ∧ s.mem.record.tlExitGate = cfg.kport
  | .waitReturns i => s.client i = .wait ∨ s.client i = .asleep
  | .wake i woken => (s.client i).waking.isSome = true ∧ WakesOne s woken

def next (cfg : Config) (s : State ι) : Event ι → State ι
  | .startJoin i valuePtr =>
    { s with
      mem := s.mem.newCtx i valuePtr
      detaching := Function.update s.detaching i false }.go i .joinTestJoinable
  | .startDetach i =>
    { s with detaching := Function.update s.detaching i true }.go i .detachTestJoinable
  | .targetRun => targetStep cfg s
  | .targetWake woken => { s.wake woken with target := .retestCtx }
  | .run i => clientStep cfg s i
  | .deadlock i => s.finish i EDEADLK
  | .sleep i => s.go i .asleep
  | .waitReturns i => s.go i .readGate
  | .wake i woken => (s.wake woken).go i (.returned ((s.client i).waking.getD 0))

structure Initial (s : State ι) : Prop where
  target : s.target = .running
  client : ∀ i, s.client i = .idle
  joinCtx : s.mem.record.tlJoinCtx = none
  cleansUp : s.mem.record.tlJoinerCleansUp = false
  gate : s.mem.record.tlExitGate = 0
  released : s.mem.released = []
  locals : s.locals.keepThreadStruct = false ∧ s.locals.needsWake = false

def joinSystem (cfg : Config) : System (State ι) (Event ι) := ⟨Initial, Enabled cfg, next cfg⟩

instance [Fintype ι] (s : State ι) : (woken : Option ι) → Decidable (WakesOne s woken)
  | some j => inferInstanceAs (Decidable (s.client j = .asleep))
  | none => inferInstanceAs (Decidable (∀ j, s.client j ≠ .asleep))

instance [Fintype ι] (cfg : Config) (s : State ι) : (e : Event ι) → Decidable (Enabled cfg s e)
  | .startJoin i _ | .startDetach i => inferInstanceAs (Decidable ((s.client i).outside = true))
  | .targetRun => inferInstanceAs (Decidable (s.target.runs = true))
  | .targetWake woken => inferInstanceAs (Decidable (s.target = .wake ∧ WakesOne s woken))
  | .run i => inferInstanceAs (Decidable ((s.client i).runs = true))
  | .deadlock i => inferInstanceAs (Decidable (s.client i = .joinTestSelf))
  | .sleep i =>
    inferInstanceAs (Decidable (s.client i = .wait ∧ s.mem.record.tlExitGate = cfg.kport))
  | .waitReturns i => inferInstanceAs (Decidable (s.client i = .wait ∨ s.client i = .asleep))
  | .wake i woken =>
    inferInstanceAs (Decidable ((s.client i).waking.isSome = true ∧ WakesOne s woken))

instance [Fintype ι] (cfg : Config) (s : State ι) (e : Event ι) :
    Decidable ((joinSystem cfg).Enabled s e) := inferInstanceAs (Decidable (Enabled cfg s e))

/-- A thread with an 8 MB stack below its record, of port 0x103, that exits with 42. -/
def worker : Config where
  self := 0x70000080f000
  isMain := false
  kport := 0x103
  exitValue := 42
  unixConforming := false
  pageSize := 4096
  stackaddr := 0x70000080f000
  stacksize := 0x800000
  currentStack := 0x70000080e000
  port_ne_zero := by decide
  port_ne_dead := by decide

def started : State Unit where
  mem :=
    { record := ⟨none, 0, true, false, 0, 0x70000000e000, 0x802000⟩
      ctx := fun _ => ⟨false, false⟩
      out := fun _ => none
      released := [] }
  target := .running
  locals := ⟨0, 0, 0, false, false⟩
  client := fun _ => .idle
  detaching := fun _ => false

theorem started_initial : Initial started := ⟨rfl, fun _ => rfl, rfl, rfl, rfl, rfl, rfl, rfl⟩

end ThreadJoin

import LibSystemCall.GuardedSystem
import LibSystemCall.SyscallErrors
import LibSystemCall.ThreadIdentity
import Mathlib.Logic.Function.Basic

/-! # z_fork

A run follows one process: at a fork that succeeds either the parent or the child. The child has
only the thread that forked; `z_atfork_child` gives it the record of the main thread. -/
namespace ProcessFork

open ByteMemory StructLayout ThreadRecord ErrnoCell GuardedSystem ThreadIdentity

/-- `struct z_pthread_atfork_entry`; 0 is no routine. -/
structure AtforkEntry where
  prepare : ℕ
  parent : ℕ
  child : ℕ

/-- `&_main_thread`, the fork table with what its routines do to memory, and the kernel's page. -/
structure Program where
  main : ℕ
  atfork : List AtforkEntry
  routine : ℕ → Memory → Memory
  commPage : CommPage
  main_ne : main ≠ 0
  main_fits : main + threadShape.bytes ≤ 2 ^ 64

/-- What the kernel answers to the calls made in the child; `edx` is not 0 there. -/
structure ChildAnswers where
  threadSelf : BitVec 32
  replyPort : BitVec 32
  selfid : BitVec 64
  register : RegisterAnswer
  taskSelf : BitVec 32
  taskReplyPort : BitVec 32
  mainSelfid : BitVec 64

/-- An error of `fork`, which is not interrupted. -/
structure ForkError where
  err : BitVec 32
  notInterrupted : err &&& 0xff ≠ SyscallErrors.EINTR

/-- The error, or what the call leaves in `rax` and `edx`. -/
abbrev ForkAnswer := Except ForkError (BitVec 64 × BitVec 32)

def callRoutine (P : Program) (r : ℕ) (p : Process) : Process :=
  if r = 0 then p
  else { p with mem := P.routine r p.mem, calls := p.calls ++ [(r, zPthreadSelf p)] }

def zPthreadAtforkPrepareHandlers (P : Program) (p : Process) : Process :=
  P.atfork.foldr (fun e p => callRoutine P e.prepare p) p

def zPthreadAtforkPrepare (p : Process) : Process := { p with psavedSelf := zPthreadSelf p }

def zPthreadAtforkParentHandlers (P : Program) (p : Process) : Process :=
  P.atfork.foldl (fun p e => callRoutine P e.parent p) p

def zPthreadAtforkChildHandlers (P : Program) (p : Process) : Process :=
  P.atfork.foldl (fun p e => callRoutine P e.child p) p

def zPthreadMainThreadPostforkInit (t : ℕ) (c : ChildAnswers) (p : Process) : Process :=
  zPthreadSetSelfInternal t c.selfid (zPthreadMainThreadInit t c.threadSelf c.replyPort p)

def zPthreadAtforkChild (c : ChildAnswers) (p : Process) : Process :=
  let p := { p with isThreaded := 0 }
  zPthreadBsdthreadInit c.register (zPthreadMainThreadPostforkInit p.psavedSelf.toNat c p)

def zAtforkPrepare (P : Program) (p : Process) : Process :=
  zPthreadAtforkPrepare (zPthreadAtforkPrepareHandlers P p)

/-- `z_pthread_atfork_parent` is empty. -/
def zAtforkParent (P : Program) (p : Process) : Process := zPthreadAtforkParentHandlers P p

def zAtforkChild (P : Program) (c : ChildAnswers) (p : Process) : Process :=
  let p := zPthreadAtforkChild c p
  let p := zMachInit P.commPage c.taskSelf c.taskReplyPort p
  let p := zPthreadSetSelf P.main c.mainSelfid p
  zPthreadAtforkChildHandlers P p

/-- `_zz_fork`: `rax` is the child's pid in both processes, and `edx` tells them apart. -/
def zzFork (a : ForkAnswer) (p : Process) : Process × BitVec 32 :=
  match a with
  | .error e => ({ p with toWorld := (zCerrorNocancel p.toWorld e.err).1 }, -1)
  | .ok (rax, edx) => (p, if edx = 0 then rax.setWidth 32 else 0)

/-- The error goes to `z_cerror`, which does not ask for a cancellation. -/
theorem zzFork_error (unixConforming : Bool) (replies : List SyscallErrors.Reply) (e : ForkError)
    (p : Process) : SyscallErrors.zCerror unixConforming replies p.toWorld e.err =
      some (.returned (zzFork (.error e) p).1.toWorld (-1), replies) := by
  have hasks : ¬SyscallErrors.Asks unixConforming e.err := fun h => e.notInterrupted h.1
  rw [SyscallErrors.zCerror_plain replies p.toWorld hasks, zzFork, SyscallErrors.stored]
  have hret : (zCerrorNocancel p.toWorld e.err).2 = -1 := rfl
  generalize zCerrorNocancel p.toWorld e.err = w at hret
  rw [hret]

def zFork (P : Program) (a : ForkAnswer) (c : ChildAnswers) (p : Process) : Process × BitVec 32 :=
  let (p, ret) := zzFork a (zAtforkPrepare P p)
  if ret = -1 then (zAtforkParent P p, ret)
  else if ret = 0 then (zAtforkChild P c p, 0)
  else (zAtforkParent P p, ret)

variable {ι : Type*}

/-- `base` are the TSD bases of the threads that live, and `port` the kernel's names for them. -/
structure State (ι : Type*) extends Process where
  base : ι → Option ℕ
  port : ι → BitVec 32

def State.running (s : State ι) (i : ι) : Process := { s.toProcess with gs := (s.base i).getD 0 }

def Runs (s : State ι) (i : ι) (t : ℕ) : Prop := s.base i = some (t + threadShape.offset .tsd)

/-- `create` is the thread `i` that makes `j`; what `z_pthread_allocate` has mapped reads `fresh`.
`start` is `z_pthread_start` in a new thread, and `store` is anything else that a thread does. -/
inductive Event (ι : Type*) where
  | create (i j : ι) (t : ℕ) (fresh : Memory) (r : RecordInit) (port : BitVec 32)
  | createFailed (i : ι)
  | start (i : ι) (t : ℕ) (selfid : BitVec 64)
  | exit (i : ι)
  | store (i : ι) (m : Memory)
  | fork (i : ι) (a : ForkAnswer) (c : ChildAnswers)

def InChild : ForkAnswer → Prop
  | .error _ => False
  | .ok (_, edx) => edx ≠ 0

instance (a : ForkAnswer) : Decidable (InChild a) := by
  cases a with
  | error _ => exact inferInstanceAs (Decidable False)
  | ok a => exact inferInstanceAs (Decidable (a.2 ≠ 0))

/-- A new mapping at `t`, and the record that `z_pthread_create_internal` makes there. -/
def newRecord (t : ℕ) (fresh : Memory) (r : RecordInit) (m : Memory) : Memory :=
  zPthreadStructInit t r fun a => if t ≤ a ∧ a < t + threadShape.bytes then fresh a else m a

/-- The kernel's part in `z_bsdthread_create`: the base of the new thread, and its port, where the
registration says. -/
def kernelStart (g : Registration) (t : ℕ) (port : BitVec 32) (m : Memory) : ℕ × Memory :=
  (t + g.tsdOffset, storeWord m (t + g.tsdOffset + g.machThreadSelfOffset)
    (port.setWidth 64 : BitVec 64))

section System

variable [DecidableEq ι]

def next (P : Program) (s : State ι) : Event ι → State ι
  | .create i j t fresh r port =>
    let p := (s.running i).update (newRecord t fresh r)
    match p.registered with
    | none => { s with toProcess := { s.running i with isThreaded := 1 } }
    | some g =>
      { toProcess := { p with isThreaded := 1, mem := (kernelStart g t port p.mem).2 }
        base := Function.update s.base j (some (kernelStart g t port p.mem).1)
        port := Function.update s.port j port }
  | .createFailed i => { s with toProcess := { s.running i with isThreaded := 1 } }
  | .start i t selfid => { s with toProcess := zPthreadSetSelfInternal t selfid (s.running i) }
  | .exit i => { s with toProcess := s.running i, base := Function.update s.base i none }
  | .store i m => { s with toProcess := { s.running i with mem := m } }
  | .fork i a c =>
    let p := (zFork P a c (s.running i)).1
    if InChild a then
      { toProcess := p, base := Function.update (fun _ => none) i (some p.gs),
        port := Function.update s.port i c.threadSelf }
    else { s with toProcess := p }

def Guarded (P : Program) (s : State ι) (t : ℕ) : Prop := t = P.main ∨ ∃ i, Runs s i t

def Spares (T : ℕ → Prop) (m m' : Memory) : Prop :=
  ∀ t, T t → ∀ k ∈ [tsdSelf, tsdErrno, tsdMachThreadSelf], slot m' t k = slot m t k

def Enabled (P : Program) (s : State ι) : Event ι → Prop
  | .create i j t _ _ _ => s.base i ≠ none ∧ s.base j = none ∧ t ≠ 0 ∧
      t + threadShape.bytes ≤ 2 ^ 64 ∧ ∀ u, Guarded P s u → Apart t u
  | .createFailed i | .exit i => s.base i ≠ none
  | .start i t _ => Runs s i t
  | .store i m => s.base i ≠ none ∧ Spares (Guarded P s) s.mem m
  | .fork i a _ => s.base i ≠ none ∧ (∀ r m, Spares (Guarded P s) m (P.routine r m)) ∧
      ∀ rax, a = .ok (rax, 0) → 0 < (rax.setWidth 32).toInt

structure BootAnswers where
  id : BitVec 64
  attributes : RecordInit
  threadSelf : BitVec 32
  replyPort : BitVec 32
  register : RegisterAnswer
  taskSelf : BitVec 32
  taskReplyPort : BitVec 32

def boot (P : Program) (b : BootAnswers) (p : Process) : Process :=
  let p := zMachInit P.commPage b.taskSelf b.taskReplyPort p
  let p := zPthreadSetSelf P.main b.id p
  zPthreadInit b.attributes b.threadSelf b.replyPort b.register p

def booted (P : Program) (b : BootAnswers) (p : Process) (i : ι) (port : ι → BitVec 32) :
    State ι where
  toProcess := boot P b p
  base := Function.update (fun _ => none) i (some (boot P b p).gs)
  port := Function.update port i b.threadSelf

def processSystem (P : Program) : System (State ι) (Event ι) where
  Initial s := ∃ b p i port, p.registered = none ∧ s = booted P b p i port
  Enabled := Enabled P
  next := next P

def MainForks (P : Program) (s : State ι) : Event ι → Prop
  | .fork i a _ => InChild a → Runs s i P.main
  | _ => True

end System

variable {P : Program} {T : ℕ → Prop} {t : ℕ} {m m' m'' : Memory} {p : Process}

theorem Spares.trans (h : Spares T m m') (h' : Spares T m' m'') : Spares T m m'' :=
  fun t ht k hk => (h' t ht k hk).trans (h t ht k hk)

theorem Spares.names (h : Spares T m m') (ht : T t) (hn : Names m t) : Names m' t where
  self := (h t ht _ (by simp)).trans hn.self
  errno := (h t ht _ (by simp)).trans hn.errno

theorem spares_of_writes {ks : List ℕ} (h : Writes t ks m m')
    (hks : ∀ k ∈ [tsdSelf, tsdErrno, tsdMachThreadSelf], k ∉ ks)
    (hap : ∀ u, T u → u = t ∨ Apart t u) : Spares T m m' := by
  intro u hu k hk
  rcases hap u hu with rfl | hdisjoint
  · exact h.others k (hks k hk)
  · refine h.within.slot hdisjoint ?_
    simp only [List.mem_cons, List.not_mem_nil, or_false] at hk
    rcases hk with rfl | rfl | rfl <;> decide

theorem self_slot (hgs : p.gs = t + threadShape.offset .tsd) :
    zPthreadSelf p = slot p.mem t tsdSelf := by
  rw [zPthreadSelf, zTsdGetDirect, hgs]
  rfl

def callRoutines (P : Program) (rs : List ℕ) (p : Process) : Process :=
  rs.foldl (fun p r => callRoutine P r p) p

/-- The calls of a column of the table, null pointers left out, by the thread at `t`. -/
def callsOf (rs : List ℕ) (t : ℕ) : List (ℕ × BitVec 64) :=
  (rs.filter (· ≠ 0)).map fun r => (r, BitVec.ofNat 64 t)

theorem callRoutines_called (hT : T t) (hspare : ∀ r m, Spares T m (P.routine r m))
    (rs : List ℕ) : ∀ p : Process, p.gs = t + threadShape.offset .tsd → Names p.mem t →
      ∃ m', Spares T p.mem m' ∧
        callRoutines P rs p = { p with mem := m', calls := p.calls ++ callsOf rs t } := by
  induction rs with
  | nil =>
    intro p _ _
    exact ⟨p.mem, fun _ _ _ _ => rfl, by simp [callRoutines, callsOf]⟩
  | cons r rs ih =>
    intro p hgs hn
    by_cases hr : r = 0
    · obtain ⟨m', hm', heq⟩ := ih p hgs hn
      refine ⟨m', hm', ?_⟩
      have hcall : callRoutines P (r :: rs) p = callRoutines P rs p := by
        simp only [callRoutines, List.foldl_cons, callRoutine, if_pos hr]
      rw [hcall, heq, callsOf, callsOf, List.filter_cons_of_neg (by simpa using hr)]
    · have hfirst := hspare r p.mem
      obtain ⟨m', hm', heq⟩ := ih
        { p with mem := P.routine r p.mem, calls := p.calls ++ [(r, zPthreadSelf p)] } hgs
        (hfirst.names hT hn)
      refine ⟨m', hfirst.trans hm', ?_⟩
      have hcall : callRoutines P (r :: rs) p = callRoutines P rs
          { p with mem := P.routine r p.mem, calls := p.calls ++ [(r, zPthreadSelf p)] } := by
        simp only [callRoutines, List.foldl_cons, callRoutine, if_neg hr]
      rw [hcall, heq, self_slot hgs, hn.self, callsOf, callsOf,
        List.filter_cons_of_pos (by simpa using hr), List.map_cons, List.append_assoc]
      rfl

theorem prepareHandlers_eq (P : Program) (p : Process) : zPthreadAtforkPrepareHandlers P p =
    callRoutines P (P.atfork.reverse.map (·.prepare)) p := by
  rw [zPthreadAtforkPrepareHandlers, callRoutines, List.foldl_map, List.foldl_reverse]

theorem parentHandlers_eq (P : Program) (p : Process) : zPthreadAtforkParentHandlers P p =
    callRoutines P (P.atfork.map (·.parent)) p := by
  rw [zPthreadAtforkParentHandlers, callRoutines, List.foldl_map]

theorem childHandlers_eq (P : Program) (p : Process) : zPthreadAtforkChildHandlers P p =
    callRoutines P (P.atfork.map (·.child)) p := by
  rw [zPthreadAtforkChildHandlers, callRoutines, List.foldl_map]

section Fork

variable (hT : T t) (hspare : ∀ r m, Spares T m (P.routine r m))
  (hgs : p.gs = t + threadShape.offset .tsd) (hn : Names p.mem t)

include hT hspare hgs hn

theorem zAtforkPrepare_called : ∃ m', Spares T p.mem m' ∧ Names m' t ∧
    zAtforkPrepare P p =
      { p with
        mem := m'
        calls := p.calls ++ callsOf (P.atfork.reverse.map (·.prepare)) t
        psavedSelf := BitVec.ofNat 64 t } := by
  obtain ⟨m', hm', heq⟩ := callRoutines_called hT hspare (P.atfork.reverse.map (·.prepare)) p hgs hn
  have hn' := hm'.names hT hn
  refine ⟨m', hm', hn', ?_⟩
  rw [zAtforkPrepare, prepareHandlers_eq, heq, zPthreadAtforkPrepare]
  have hself : zPthreadSelf { p with
      mem := m', calls := p.calls ++ callsOf (P.atfork.reverse.map (·.prepare)) t } =
      BitVec.ofNat 64 t := by
    refine (self_slot (t := t) ?_).trans hn'.self
    exact hgs
  rw [hself]

theorem zAtforkParent_called : ∃ m', Spares T p.mem m' ∧
    zAtforkParent P p =
      { p with mem := m', calls := p.calls ++ callsOf (P.atfork.map (·.parent)) t } := by
  rw [zAtforkParent, parentHandlers_eq]
  exact callRoutines_called hT hspare _ p hgs hn

end Fork

/-- What the child is like before its routines are called: the record of the thread that has
forked is made anew, and then the thread takes the main thread's. -/
theorem postfork (c : ChildAnswers) (ht : t ≠ 0) (hfits : t + threadShape.bytes ≤ 2 ^ 64)
    (hap : t = P.main ∨ Apart t P.main) (hsaved : p.psavedSelf = BitVec.ofNat 64 t) :
    let q := zPthreadSetSelf P.main c.mainSelfid
      (zMachInit P.commPage c.taskSelf c.taskReplyPort (zPthreadAtforkChild c p))
    q.gs = P.main + threadShape.offset .tsd ∧ Names q.mem P.main ∧ q.calls = p.calls ∧
      q.pages = initPages P.commPage p.pages ∧
      q.registered = (if c.register.rv = -1 then p.registered else some registrationData) ∧
      slot q.mem P.main tsdMachThreadSelf =
        if t = P.main then c.threadSelf.setWidth 64 else slot p.mem P.main tsdMachThreadSelf := by
  intro q
  have hself : p.psavedSelf.toNat = t := by
    have hbytes := record_bytes
    rw [hsaved, BitVec.toNat_ofNat, Nat.mod_eq_of_lt (by omega)]
  obtain ⟨m₁, hinit, hwrites, hport⟩ :=
    mainThreadInit_record ht c.threadSelf c.replyPort { p with isThreaded := 0 }
  obtain ⟨m₂, hid, hkept⟩ :=
    setSelfInternal_record t c.selfid { p with isThreaded := 0, mem := m₁ }
  obtain ⟨features, hint, hdata⟩ :=
    bsdthreadInit_rest c.register { p with isThreaded := 0, mem := m₂ }
  generalize hregistered : (if c.register.rv = -1 then p.registered else some registrationData) =
    registered at *
  obtain ⟨m₃, hset, hmain, hnames⟩ := setSelf_record P.main c.mainSelfid
    (zMachInit P.commPage c.taskSelf c.taskReplyPort { p with
      isThreaded := 0, mem := m₂, registered := registered, supportedFeatures := features,
      stackHint := hint })
  have hchild : zPthreadAtforkChild c p = { p with
      isThreaded := 0, mem := m₂, registered := registered, supportedFeatures := features,
      stackHint := hint } := by
    rw [zPthreadAtforkChild]
    dsimp only
    rw [hself, zPthreadMainThreadPostforkInit, hinit, hid, hdata]
  have hq : q = { zMachInit P.commPage c.taskSelf c.taskReplyPort { p with
      isThreaded := 0, mem := m₂, registered := registered, supportedFeatures := features,
      stackHint := hint } with mem := m₃, gs := P.main + threadShape.offset .tsd } := by
    rw [← hset, ← hchild]
  rw [hq]
  refine ⟨rfl, hnames, rfl, rfl, rfl, ?_⟩
  have hlast : slot m₃ P.main tsdMachThreadSelf = slot m₂ P.main tsdMachThreadSelf :=
    hmain.others _ (by decide)
  change slot m₃ P.main tsdMachThreadSelf = _
  rw [hlast]
  by_cases hsame : t = P.main
  · subst hsame
    rw [if_pos rfl, ← hport]
    exact hkept.others _ (by decide)
  · rw [if_neg hsame]
    have hdisjoint := hap.resolve_left hsame
    exact (hkept.within.slot hdisjoint (by decide)).trans
      (hwrites.within.slot hdisjoint (by decide))

/-- A thread's errno cell lies in its record, before the TSD. -/
theorem errno_stored (h : OwnsErrno p.toWorld t) (err : BitVec 32) :
    (zCerrorNocancel p.toWorld err).1.gs = p.gs ∧
      Writes t [] p.mem (zCerrorNocancel p.toWorld err).1.mem := by
  have heffect : StoreEffect p.toWorld (zCerrorNocancel p.toWorld err).1 t (.failedCall err) :=
    apply_effect h (.failedCall err)
  refine ⟨heffect.gs, fun a ha => heffect.outside a ?_, fun k _ => loadWord_congr fun i _ =>
    heffect.outside _ (.inr ?_)⟩
  · have hbytes := record_bytes
    rw [errnoAddr, offset_errNo]
    omega
  · rw [errnoAddr, offset_errNo, slotAt, offset_tsd]
    omega

theorem owns_errno (hgs : p.gs = t + threadShape.offset .tsd) (hn : Names p.mem t)
    (hfits : t + threadShape.bytes ≤ 2 ^ 64) : OwnsErrno p.toWorld t where
  base := hgs
  slot := by
    rw [zTsdGetDirect, hgs]
    exact hn.errno
  fits := hfits

def parentResult : ForkAnswer → BitVec 32
  | .error _ => -1
  | .ok (rax, _) => rax.setWidth 32

/-- The columns of the fork table that are called by the thread at `t` without a child. -/
def parentCalls (P : Program) (t : ℕ) : List (ℕ × BitVec 64) :=
  callsOf (P.atfork.reverse.map (·.prepare)) t ++ callsOf (P.atfork.map (·.parent)) t

theorem zFork_parent {a : ForkAnswer} (c : ChildAnswers) (hT : T t)
    (hspare : ∀ r m, Spares T m (P.routine r m)) (hap : ∀ u, T u → u = t ∨ Apart t u)
    (hgs : p.gs = t + threadShape.offset .tsd) (hn : Names p.mem t)
    (hfits : t + threadShape.bytes ≤ 2 ^ 64) (ha : ¬InChild a)
    (hpid : ∀ rax, a = .ok (rax, 0) → 0 < (rax.setWidth 32).toInt) :
    ∃ m' g, Spares T p.mem m' ∧
      zFork P a c p = ({ p with
        mem := m'
        errnoGlobal := g
        calls := p.calls ++ parentCalls P t
        psavedSelf := BitVec.ofNat 64 t }, parentResult a) := by
  obtain ⟨m₁, hm₁, hn₁, hprepare⟩ := zAtforkPrepare_called hT hspare hgs hn
  rw [parentCalls]
  cases a with
  | error e =>
    obtain ⟨hgs₂, hwrites⟩ := errno_stored (p := zAtforkPrepare P p)
      (by rw [hprepare]; exact owns_errno hgs hn₁ hfits) e.err
    rw [hprepare] at hgs₂ hwrites
    generalize hw : (zCerrorNocancel _ e.err).1 = w at hgs₂ hwrites
    obtain ⟨m₂, gs, g⟩ := w
    obtain rfl : gs = p.gs := hgs₂
    have hm₂ : Spares T m₁ m₂ := spares_of_writes hwrites (by simp) hap
    obtain ⟨m₃, hm₃, hparent⟩ := zAtforkParent_called (p := { p with
      mem := m₂
      errnoGlobal := g
      calls := p.calls ++ callsOf (P.atfork.reverse.map (·.prepare)) t
      psavedSelf := BitVec.ofNat 64 t }) hT hspare hgs (hm₂.names hT hn₁)
    refine ⟨m₃, g, (hm₁.trans hm₂).trans hm₃, ?_⟩
    rw [zFork, hprepare, zzFork]
    simp only [hw, if_true]
    rw [hparent, List.append_assoc]
    rfl
  | ok a =>
    obtain ⟨rax, edx⟩ := a
    obtain rfl : edx = 0 := not_not.mp ha
    have hpos := hpid rax rfl
    have hne : ∀ v : BitVec 32, v.toInt ≤ 0 → rax.setWidth 32 ≠ v := fun v hv heq => by
      rw [heq] at hpos
      omega
    obtain ⟨m₂, hm₂, hparent⟩ := zAtforkParent_called (p := { p with
      mem := m₁
      calls := p.calls ++ callsOf (P.atfork.reverse.map (·.prepare)) t
      psavedSelf := BitVec.ofNat 64 t }) hT hspare hgs hn₁
    refine ⟨m₂, p.errnoGlobal, hm₁.trans hm₂, ?_⟩
    rw [zFork, hprepare, zzFork]
    simp only [if_true, if_neg (hne (-1) (by decide)), if_neg (hne 0 (by decide))]
    rw [hparent, List.append_assoc]
    rfl

def childCalls (P : Program) (t : ℕ) : List (ℕ × BitVec 64) :=
  callsOf (P.atfork.reverse.map (·.prepare)) t ++ callsOf (P.atfork.map (·.child)) P.main

theorem zFork_child {a : ForkAnswer} (c : ChildAnswers) (hT : T t) (hmain : T P.main)
    (hspare : ∀ r m, Spares T m (P.routine r m)) (hap : t = P.main ∨ Apart t P.main)
    (hgs : p.gs = t + threadShape.offset .tsd) (hn : Names p.mem t) (ht : t ≠ 0)
    (hfits : t + threadShape.bytes ≤ 2 ^ 64) (ha : InChild a) :
    (zFork P a c p).2 = 0 ∧
    (zFork P a c p).1.gs = P.main + threadShape.offset .tsd ∧
    Names (zFork P a c p).1.mem P.main ∧
    (zFork P a c p).1.calls = p.calls ++ childCalls P t ∧
    (zFork P a c p).1.pages = initPages P.commPage p.pages ∧
    (zFork P a c p).1.registered =
      (if c.register.rv = -1 then p.registered else some registrationData) ∧
    slot (zFork P a c p).1.mem P.main tsdMachThreadSelf =
      if t = P.main then c.threadSelf.setWidth 64 else slot p.mem P.main tsdMachThreadSelf := by
  obtain ⟨m₁, hm₁, hn₁, hprepare⟩ := zAtforkPrepare_called hT hspare hgs hn
  have hfork : zFork P a c p = (zAtforkChild P c (zAtforkPrepare P p), 0) := by
    cases a with
    | error err => exact ha.elim
    | ok a => rw [zFork, zzFork, if_neg (show a.2 ≠ 0 from ha)]; rfl
  obtain ⟨hgs₂, hn₂, hcalls, hpages, hregistered, hport⟩ := postfork (p := zAtforkPrepare P p)
    (P := P) c ht hfits hap (by rw [hprepare])
  generalize hq : zPthreadSetSelf P.main c.mainSelfid (zMachInit P.commPage c.taskSelf
    c.taskReplyPort (zPthreadAtforkChild c (zAtforkPrepare P p))) = q at *
  obtain ⟨m₃, hm₃, hchild⟩ := callRoutines_called hmain hspare (P.atfork.map (·.child)) q hgs₂ hn₂
  rw [hprepare] at hcalls hpages hregistered hport
  have hend : (zFork P a c p).1 = { q with
      mem := m₃, calls := q.calls ++ callsOf (P.atfork.map (·.child)) P.main } := by
    rw [hfork, ← hchild, ← hq, ← childHandlers_eq]
    rfl
  refine ⟨by rw [hfork], ?_⟩
  rw [hend]
  refine ⟨hgs₂, hm₃.names hmain hn₂, ?_, hpages, hregistered, ?_⟩
  · change q.calls ++ _ = _
    rw [hcalls, childCalls, List.append_assoc]
  · change slot m₃ _ _ = _
    rw [hm₃ _ hmain _ (by simp), hport, hm₁ _ hmain _ (by simp)]

structure Identified (P : Program) (s : State ι) : Prop where
  based : ∀ i, s.base i ≠ none → ∃ t, Runs s i t
  names : ∀ i t, Runs s i t → Names s.mem t
  placed : ∀ i t, Runs s i t → t ≠ 0 ∧ t + threadShape.bytes ≤ 2 ^ 64
  apart : ∀ i j t u, Runs s i t → Runs s j u → i ≠ j → Apart t u
  fromMain : ∀ i t, Runs s i t → t = P.main ∨ Apart t P.main
  registered : ∀ g, s.registered = some g → g = registrationData
  pages : initPages P.commPage s.pages = s.pages

/-- The cell that the lock code takes a thread's name from is the kernel's name for it. -/
def PortsKnown (s : State ι) : Prop :=
  ∀ i t, Runs s i t → slot s.mem t tsdMachThreadSelf = (s.port i).setWidth 64

variable {s s' : State ι} {i j : ι} {u : ℕ}

theorem Runs.unique (h : Runs s i t) (h' : Runs s i u) : t = u := by
  have := Option.some.inj (h.symm.trans h')
  omega

theorem Runs.gs (h : Runs s i t) : (s.running i).gs = t + threadShape.offset .tsd := by
  simp only [State.running, h.symm ▸ Option.getD_some]

theorem Runs.self (h : Runs s i t) (hn : Names s.mem t) :
    zPthreadSelf (s.running i) = BitVec.ofNat 64 t :=
  (self_slot h.gs).trans hn.self

theorem Runs.owner (h : Runs s i t) :
    zLockOwnerGetSelf (s.running i) = (slot s.mem t tsdMachThreadSelf).setWidth 32 := by
  rw [zLockOwnerGetSelf, zTsdGetDirect, h.gs]
  rfl

theorem Identified.guarded_apart (h : Identified P s) (hi : Runs s i t) :
    ∀ u, Guarded P s u → u = t ∨ Apart t u := by
  rintro u (rfl | ⟨j, hj⟩)
  · exact (h.fromMain i t hi).imp_left Eq.symm
  · by_cases hij : i = j
    · subst hij
      exact .inl (hj.unique hi)
    · exact .inr (h.apart i j t u hi hj hij)

theorem Identified.kept (h : Identified P s) (hbase : ∀ i g, s'.base i = some g → s.base i = some g)
    (hmem : Spares (Guarded P s) s.mem s'.mem) (hreg : s'.registered = s.registered)
    (hpages : s'.pages = s.pages) : Identified P s' where
  based i hi := by
    obtain ⟨g, hg⟩ := Option.ne_none_iff_exists'.mp hi
    obtain ⟨t, ht⟩ := h.based i (by rw [hbase i g hg]; exact Option.some_ne_none g)
    have := (hbase i g hg).symm.trans ht
    exact ⟨t, hg.trans this⟩
  names i t ht := hmem.names (.inr ⟨i, hbase i _ ht⟩) (h.names i t (hbase i _ ht))
  placed i t ht := h.placed i t (hbase i _ ht)
  apart i j t u ht hu := h.apart i j t u (hbase i _ ht) (hbase j _ hu)
  fromMain i t ht := h.fromMain i t (hbase i _ ht)
  registered g hg := h.registered g (hreg.symm.trans hg)
  pages := by rw [hpages]; exact h.pages

theorem PortsKnown.kept (h : PortsKnown s) (hbase : ∀ i g, s'.base i = some g → s.base i = some g)
    (hmem : Spares (Guarded P s) s.mem s'.mem) (hport : s'.port = s.port) : PortsKnown s' := by
  intro i t ht
  rw [hmem t (.inr ⟨i, hbase i _ ht⟩) _ (by simp), hport]
  exact h i t (hbase i _ ht)

theorem newRecord_names (t : ℕ) (fresh : Memory) (r : RecordInit) (port : BitVec 32) (m : Memory) :
    Within t m (kernelStart registrationData t port (newRecord t fresh r m)).2 ∧
      Names (kernelStart registrationData t port (newRecord t fresh r m)).2 t ∧
      slot (kernelStart registrationData t port (newRecord t fresh r m)).2 t tsdMachThreadSelf =
        port.setWidth 64 := by
  have hstart : (kernelStart registrationData t port (newRecord t fresh r m)).2 =
      setSlot t tsdMachThreadSelf (port.setWidth 64) (newRecord t fresh r m) := rfl
  obtain ⟨hwrites, hnames⟩ := structInit_record t r
    fun a => if t ≤ a ∧ a < t + threadShape.bytes then fresh a else m a
  have hlast : Writes t [tsdMachThreadSelf] (newRecord t fresh r m)
      (setSlot t tsdMachThreadSelf (port.setWidth 64) (newRecord t fresh r m)) :=
    (Writes.refl ..).slot (by decide) (by decide)
  rw [hstart]
  refine ⟨?_, hnames.writes hlast (by decide) (by decide), slot_setSlot_same ..⟩
  refine Within.trans (Within.trans (fun a ha => ?_) hwrites.within) hlast.within
  exact if_neg (by omega)

section Steps

variable [DecidableEq ι]

theorem created (h : Identified P s) {fresh : Memory} {r : RecordInit} {port : BitVec 32}
    (he : Enabled P s (.create i j t fresh r port))
    (hmem : s'.mem = (kernelStart registrationData t port (newRecord t fresh r s.mem)).2)
    (hbase : s'.base = Function.update s.base j (some (t + threadShape.offset .tsd)))
    (hport : s'.port = Function.update s.port j port) (hreg : s'.registered = s.registered)
    (hpages : s'.pages = s.pages) :
    Identified P s' ∧ (PortsKnown s → PortsKnown s') := by
  obtain ⟨-, hj, ht, hfits, hfresh⟩ := he
  obtain ⟨hwithin, hnames, hslot⟩ := newRecord_names t fresh r port s.mem
  rw [← hmem] at hwithin hnames hslot
  have hruns : ∀ k u, Runs s' k u → k = j ∧ u = t ∨ k ≠ j ∧ Runs s k u ∧ Apart t u := by
    intro k u hk
    rw [Runs, hbase] at hk
    by_cases hkj : k = j
    · subst hkj
      rw [Function.update_self] at hk
      have := Option.some.inj hk
      exact .inl ⟨rfl, by omega⟩
    · rw [Function.update_of_ne hkj] at hk
      exact .inr ⟨hkj, hk, hfresh u (.inr ⟨k, hk⟩)⟩
  refine ⟨⟨fun k hk => ?_, fun k u hk => ?_, fun k u hk => ?_, fun k l u v hk hl hne => ?_,
    fun k u hk => ?_, fun g hg => h.registered g (hreg.symm.trans hg),
    by rw [hpages]; exact h.pages⟩, fun hports k u hk => ?_⟩
  · by_cases hkj : k = j
    · exact ⟨t, by rw [Runs, hbase, hkj, Function.update_self]⟩
    · rw [hbase, Function.update_of_ne hkj] at hk
      obtain ⟨u, hu⟩ := h.based k hk
      exact ⟨u, by rw [Runs, hbase, Function.update_of_ne hkj]; exact hu⟩
  · rcases hruns k u hk with ⟨-, rfl⟩ | ⟨-, hold, hap⟩
    · exact hnames
    · have hn := h.names k u hold
      exact ⟨(hwithin.slot hap (by decide)).trans hn.self,
        (hwithin.slot hap (by decide)).trans hn.errno⟩
  · rcases hruns k u hk with ⟨-, rfl⟩ | ⟨-, hold, -⟩
    · exact ⟨ht, hfits⟩
    · exact h.placed k u hold
  · rcases hruns k u hk with ⟨rfl, rfl⟩ | ⟨-, hold, hap⟩
    · rcases hruns l v hl with ⟨rfl, -⟩ | ⟨-, -, hap⟩
      · exact absurd rfl hne
      · exact hap
    · rcases hruns l v hl with ⟨-, rfl⟩ | ⟨-, hold', -⟩
      · exact hap.symm
      · exact h.apart k l u v hold hold' hne
  · rcases hruns k u hk with ⟨-, rfl⟩ | ⟨-, hold, -⟩
    · exact .inr (hfresh P.main (.inl rfl))
    · exact h.fromMain k u hold
  · rcases hruns k u hk with ⟨rfl, rfl⟩ | ⟨hkj, hold, hap⟩
    · rw [hslot, hport, Function.update_self]
    · rw [hport, Function.update_of_ne hkj, hwithin.slot hap (by decide)]
      exact hports k u hold

/-- Only the main thread's record is in use where one thread runs. -/
theorem alone (hbase : s.base = Function.update (fun _ => none) i
      (some (P.main + threadShape.offset .tsd))) (hnames : Names s.mem P.main)
    (hreg : ∀ g, s.registered = some g → g = registrationData)
    (hpages : initPages P.commPage s.pages = s.pages) :
    Identified P s ∧ (slot s.mem P.main tsdMachThreadSelf = (s.port i).setWidth 64 →
      PortsKnown s) := by
  have hruns : ∀ k u, Runs s k u → k = i ∧ u = P.main := by
    intro k u hk
    rw [Runs, hbase] at hk
    by_cases hki : k = i
    · subst hki
      rw [Function.update_self] at hk
      have := Option.some.inj hk
      exact ⟨rfl, by omega⟩
    · rw [Function.update_of_ne hki] at hk
      cases hk
  refine ⟨⟨fun k hk => ?_, fun k u hk => ?_, fun k u hk => ?_, fun k l u v hk hl hne => ?_,
    fun k u hk => ?_, hreg, hpages⟩, fun hslot k u hk => ?_⟩
  · by_cases hki : k = i
    · exact ⟨P.main, by rw [Runs, hbase, hki, Function.update_self]⟩
    · rw [hbase, Function.update_of_ne hki] at hk
      exact absurd rfl hk
  · obtain ⟨-, rfl⟩ := hruns k u hk
    exact hnames
  · obtain ⟨-, rfl⟩ := hruns k u hk
    exact ⟨P.main_ne, P.main_fits⟩
  · exact absurd ((hruns k u hk).1.trans (hruns l v hl).1.symm) hne
  · exact .inl (hruns k u hk).2
  · obtain ⟨rfl, rfl⟩ := hruns k u hk
    exact hslot

theorem next_create (hreg : s.registered = some registrationData) (i j : ι) (t : ℕ)
    (fresh : Memory) (r : RecordInit) (port : BitVec 32) :
    next P s (.create i j t fresh r port) =
      { toProcess := { s.running i with
          mem := (kernelStart registrationData t port (newRecord t fresh r s.mem)).2
          isThreaded := 1 }
        base := Function.update s.base j (some (t + threadShape.offset .tsd))
        port := Function.update s.port j port } := by
  rw [next]
  dsimp only [Process.update, State.running]
  rw [hreg]
  rfl

theorem step_identified (h : Identified P s) (e : Event ι) (he : Enabled P s e) :
    Identified P (next P s e) ∧
      (MainForks P s e → PortsKnown s → PortsKnown (next P s e)) := by
  have hsame : ∀ m, Spares (Guarded P s) m m := fun _ _ _ _ _ => rfl
  cases e with
  | create i j t fresh r port =>
    cases hg : s.registered with
    | none =>
      have hnext : next P s (.create i j t fresh r port) =
          { s with toProcess := { s.running i with isThreaded := 1 } } := by
        rw [next]
        dsimp only [Process.update, State.running]
        rw [hg]
      rw [hnext]
      exact ⟨h.kept (fun _ _ => id) (hsame _) rfl rfl,
        fun _ hports => hports.kept (fun _ _ => id) (hsame _) rfl⟩
    | some g =>
      obtain rfl := h.registered g hg
      have hboth : Identified P (next P s (.create i j t fresh r port)) ∧
          (PortsKnown s → PortsKnown (next P s (.create i j t fresh r port))) := by
        rw [next_create hg]
        exact created h he rfl rfl rfl rfl rfl
      exact ⟨hboth.1, fun _ => hboth.2⟩
  | createFailed i =>
    exact ⟨h.kept (fun _ _ => id) (hsame _) rfl rfl,
      fun _ hports => hports.kept (fun _ _ => id) (hsame _) rfl⟩
  | start i t selfid =>
    obtain ⟨m', hset, hwrites⟩ := setSelfInternal_record t selfid (s.running i)
    have hspares : Spares (Guarded P s) s.mem m' :=
      spares_of_writes hwrites (by simp) (h.guarded_apart he)
    rw [next, hset]
    exact ⟨h.kept (fun _ _ => id) hspares rfl rfl,
      fun _ hports => hports.kept (fun _ _ => id) hspares rfl⟩
  | exit i =>
    have hbase : ∀ k g, Function.update s.base i none k = some g → s.base k = some g := by
      intro k g hk
      by_cases hki : k = i
      · rw [hki, Function.update_self] at hk
        cases hk
      · rwa [Function.update_of_ne hki] at hk
    exact ⟨h.kept hbase (hsame _) rfl rfl, fun _ hports => hports.kept hbase (hsame _) rfl⟩
  | store i m =>
    exact ⟨h.kept (fun _ _ => id) he.2 rfl rfl,
      fun _ hports => hports.kept (fun _ _ => id) he.2 rfl⟩
  | fork i a c =>
    obtain ⟨hlive, hspare, hpid⟩ := he
    obtain ⟨t, ht⟩ := h.based i hlive
    obtain ⟨hne, hfits⟩ := h.placed i t ht
    by_cases ha : InChild a
    · obtain ⟨-, hgs, hnames, -, hpages, hregistered, hport⟩ := zFork_child c (.inr ⟨i, ht⟩)
        (.inl rfl) hspare (h.fromMain i t ht) ht.gs (h.names i t ht) hne hfits ha
      have hnext : next P s (.fork i a c) =
          { toProcess := (zFork P a c (s.running i)).1
            base := Function.update (fun _ => none) i (some (zFork P a c (s.running i)).1.gs)
            port := Function.update s.port i c.threadSelf } := if_pos ha
      have hboth := alone (P := P) (s := next P s (.fork i a c)) (i := i)
        (by rw [hnext, ← hgs]) (by rw [hnext]; exact hnames)
        (by
          rw [hnext]
          intro g hg
          change (zFork P a c _).1.registered = some g at hg
          rw [hregistered] at hg
          split_ifs at hg
          · exact h.registered g hg
          · exact (Option.some.inj hg).symm)
        (by
          rw [hnext]
          change initPages _ (zFork P a c _).1.pages = _
          rw [hpages]
          exact initPages_again ..)
      refine ⟨hboth.1, fun hmain hports => hboth.2 ?_⟩
      rw [hnext]
      dsimp only
      rw [hport, Function.update_self, if_pos (ht.unique (hmain ha))]
    · obtain ⟨m', g, hspares, hfork⟩ := zFork_parent c (.inr ⟨i, ht⟩) hspare
        (h.guarded_apart ht) ht.gs (h.names i t ht) hfits ha hpid
      have hnext : next P s (.fork i a c) =
          { s with toProcess := (zFork P a c (s.running i)).1 } := if_neg ha
      rw [hnext, hfork]
      exact ⟨h.kept (fun _ _ => id) hspares rfl rfl,
        fun _ hports => hports.kept (fun _ _ => id) hspares rfl⟩

theorem boot_main (b : BootAnswers) (p : Process) :
    (boot P b p).gs = P.main + threadShape.offset .tsd ∧ Names (boot P b p).mem P.main ∧
      slot (boot P b p).mem P.main tsdMachThreadSelf = b.threadSelf.setWidth 64 ∧
      (boot P b p).pages = initPages P.commPage p.pages ∧
      (boot P b p).registered =
        if b.register.rv = -1 then p.registered else some registrationData := by
  obtain ⟨m₁, hset, -, hn₁⟩ := setSelf_record P.main b.id
    (zMachInit P.commPage b.taskSelf b.taskReplyPort p)
  obtain ⟨-, hn₂⟩ := structInit_record P.main b.attributes m₁
  generalize hm₂ : zPthreadStructInit P.main b.attributes m₁ = m₂ at hn₂
  have hself : (zPthreadSelf { zMachInit P.commPage b.taskSelf b.taskReplyPort p with
      mem := m₁, gs := P.main + threadShape.offset .tsd }).toNat = P.main := by
    have hbytes := record_bytes
    have hfits := P.main_fits
    have hslot : zPthreadSelf { zMachInit P.commPage b.taskSelf b.taskReplyPort p with
        mem := m₁, gs := P.main + threadShape.offset .tsd } = BitVec.ofNat 64 P.main := by
      refine (self_slot (t := P.main) ?_).trans hn₁.self
      rfl
    rw [hslot, BitVec.toNat_ofNat, Nat.mod_eq_of_lt (by omega)]
  obtain ⟨m₃, hinit, hwrites, hport⟩ := mainThreadInit_record P.main_ne b.threadSelf b.replyPort
    { zMachInit P.commPage b.taskSelf b.taskReplyPort p with
      mem := m₂, gs := P.main + threadShape.offset .tsd }
  obtain ⟨features, hint, hdata⟩ := bsdthreadInit_rest b.register
    { zMachInit P.commPage b.taskSelf b.taskReplyPort p with
      mem := m₃, gs := P.main + threadShape.offset .tsd }
  have hboot : boot P b p = { zMachInit P.commPage b.taskSelf b.taskReplyPort p with
      mem := m₃, gs := P.main + threadShape.offset .tsd
      registered := if b.register.rv = -1 then p.registered else some registrationData
      supportedFeatures := features, stackHint := hint } := by
    rw [boot, hset, zPthreadInit]
    dsimp only
    rw [hself, Process.update, hm₂, hinit, hdata]
    rfl
  rw [hboot]
  exact ⟨rfl, hn₂.writes hwrites (by decide) (by decide), hport, rfl, rfl⟩

theorem booted_identified {b : BootAnswers} {p : Process} {port : ι → BitVec 32}
    (hp : p.registered = none) :
    Identified P (booted P b p i port) ∧ PortsKnown (booted P b p i port) := by
  obtain ⟨hgs, hnames, hslot, hpages, hregistered⟩ := boot_main (P := P) b p
  have hboth := alone (P := P) (s := booted P b p i port) (i := i) (by rw [booted, hgs]) hnames
    (fun g hg => by
      change (boot P b p).registered = some g at hg
      rw [hregistered, hp] at hg
      split_ifs at hg
      exact (Option.some.inj hg).symm)
    (by
      change initPages _ (boot P b p).pages = (boot P b p).pages
      rw [hpages]
      exact initPages_again ..)
  refine ⟨hboth.1, hboth.2 ?_⟩
  rw [booted]
  dsimp only
  rw [hslot, Function.update_self]

theorem identified_inductive (P : Program) :
    Inductive (processSystem (ι := ι) P) anyStep (Identified P) where
  initial s := by
    rintro ⟨b, p, i, port, hp, rfl⟩
    exact (booted_identified hp).1
  step _ e h he _ := (step_identified h e he).1

theorem known_inductive (P : Program) :
    Inductive (processSystem (ι := ι) P) (MainForks P) fun s => Identified P s ∧ PortsKnown s where
  initial s := by
    rintro ⟨b, p, i, port, hp, rfl⟩
    exact booted_identified hp
  step _ e h he hg := ⟨(step_identified h.1 e he).1, (step_identified h.1 e he).2 hg h.2⟩

/-- In every run each thread finds itself and its errno cell in a record of its own. If in each
child that a run goes on with it is the main thread that has forked, then each thread also takes
locks under the name that the kernel has for it. -/
theorem threads_find_themselves {s : State ι} (h : Reachable (processSystem P) s) {i : ι}
    (hi : s.base i ≠ none) :
    (∃ t, Runs s i t ∧ zPthreadSelf (s.running i) = BitVec.ofNat 64 t ∧
      OwnsErrno (s.running i).toWorld t ∧ ∀ j u, j ≠ i → Runs s j u → Apart t u) ∧
    (ReachableUnder (processSystem P) (MainForks P) s →
      zLockOwnerGetSelf (s.running i) = s.port i) := by
  have hs := (identified_inductive P).reachable h
  obtain ⟨t, ht⟩ := hs.based i hi
  have hnames := hs.names i t ht
  refine ⟨⟨t, ht, ht.self hnames,
    owns_errno ht.gs hnames (hs.placed i t ht).2, fun j u hj hu => hs.apart i j t u ht hu hj.symm⟩,
    fun hguarded => ?_⟩
  have hport := ((known_inductive P).reachable hguarded).2 i t ht
  rw [ht.owner, hport, BitVec.setWidth_setWidth_of_le _ (by decide), BitVec.setWidth_eq]

end Steps

/-! A second thread, on a program with two entries in its fork table. -/

def smallProgram : Program where
  main := 0x1000
  atfork := [⟨7, 8, 9⟩, ⟨0, 0, 10⟩]
  routine _ m := m
  commPage := ⟨14, 12, 12, 0⟩
  main_ne := by decide
  main_fits := by decide +kernel

def plainRecord : RecordInit := ⟨0, none, 0, 0, 0, 0, 0, 0, 0, 0⟩

def smallBoot : BootAnswers := ⟨1, plainRecord, 0x103, 0x207, ⟨0x4f, 0⟩, 0x303, 0x307⟩

def beforeBoot : Process where
  mem _ := 0
  gs := 0
  errnoGlobal := 0
  registered := none
  supportedFeatures := 0
  stackHint := 0xB0000000
  isThreaded := 0
  psavedSelf := 0
  machTaskSelf := 0
  taskReplyPort := 0
  pages := ⟨0, 0, 0, 0, 0, 0, 0⟩
  calls := []

def oneThread : State ℕ := booted smallProgram smallBoot beforeBoot 0 fun _ => 0

def createSecond : Event ℕ := .create 0 1 0x10000 (fun _ => 0) plainRecord 0x205

def twoThreads : State ℕ := next smallProgram oneThread createSecond

theorem oneThread_runs {i t : ℕ} : Runs oneThread i t ↔ i = 0 ∧ t = smallProgram.main := by
  have hbase : oneThread.base = Function.update (fun _ => none) 0
      (some (smallProgram.main + threadShape.offset .tsd)) := by
    rw [oneThread, booted, (boot_main smallBoot beforeBoot).1]
  rw [Runs, hbase]
  by_cases hi : i = 0
  · subst hi
    rw [Function.update_self, Option.some_inj]
    omega
  · rw [Function.update_of_ne hi]
    exact iff_of_false nofun fun h => hi h.1

theorem createSecond_enabled : Enabled smallProgram oneThread createSecond := by
  have hmain : Runs oneThread 0 smallProgram.main := oneThread_runs.mpr ⟨rfl, rfl⟩
  refine ⟨fun hnone => ?_, rfl, by decide, by decide +kernel, ?_⟩
  · cases hnone.symm.trans hmain
  · rintro u (rfl | ⟨i, hi⟩)
    · exact .inr (by decide +kernel)
    · obtain ⟨-, rfl⟩ := oneThread_runs.mp hi
      exact .inr (by decide +kernel)

theorem oneThread_initial : (processSystem smallProgram).Initial oneThread := by
  have hnone : beforeBoot.registered = none := rfl
  have hbooted : oneThread = booted smallProgram smallBoot beforeBoot 0 fun _ => 0 := rfl
  exact ⟨smallBoot, beforeBoot, 0, fun _ => 0, hnone, hbooted⟩

theorem twoThreads_reachable :
    ReachableUnder (processSystem smallProgram) (MainForks smallProgram) twoThreads := by
  have hfirst : ReachableUnder (processSystem smallProgram) (MainForks smallProgram) oneThread :=
    .initial oneThread_initial
  have hnext : (processSystem smallProgram).next oneThread createSecond = twoThreads := rfl
  rw [← hnext]
  exact hfirst.step createSecond_enabled trivial

theorem twoThreads_next : Runs twoThreads 0 0x1000 ∧ Runs twoThreads 1 0x10000 ∧
    twoThreads.port 1 = 0x205 := by
  have hreg : oneThread.registered = some registrationData :=
    (boot_main smallBoot beforeBoot).2.2.2.2
  have hmain : Runs oneThread 0 0x1000 := oneThread_runs.mpr ⟨rfl, rfl⟩
  rw [twoThreads, createSecond, next_create hreg, Runs, Runs]
  refine ⟨?_, ?_, ?_⟩ <;> dsimp only
  · rw [Function.update_of_ne (by decide)]
    exact hmain
  · rw [Function.update_self]
  · rw [Function.update_self]

theorem threads_find_themselves_two :
    (∃ t, Runs twoThreads 1 t ∧ zPthreadSelf (twoThreads.running 1) = BitVec.ofNat 64 t ∧
      OwnsErrno (twoThreads.running 1).toWorld t ∧
      ∀ j u, j ≠ 1 → Runs twoThreads j u → Apart t u) ∧
    zLockOwnerGetSelf (twoThreads.running 1) = 0x205 := by
  obtain ⟨-, hruns, hport⟩ := twoThreads_next
  have hlive : twoThreads.base 1 ≠ none := fun hnone => by
    cases hnone.symm.trans hruns
  obtain ⟨hself, hlock⟩ := threads_find_themselves twoThreads_reachable.reachable hlive
  exact ⟨hself, (hlock twoThreads_reachable).trans hport⟩

/-- What `z_fork` does in any reachable state. The prepare routines run from the last entry of the
table to the first, and then those of the process that goes on, from the first to the last. Where
no child is made, or in the parent, the thread goes on as it was. The child has one thread, which
takes itself for the main thread whichever thread has forked; the name under which it takes locks
is the kernel's if the main thread has forked, and otherwise the one that the main thread had. -/
theorem fork_goes_on [DecidableEq ι] {s : State ι} (h : Reachable (processSystem P) s) {i : ι}
    {t : ℕ} (ht : Runs s i t) {a : ForkAnswer} {c : ChildAnswers}
    (he : Enabled P s (.fork i a c)) :
    let s' := next P s (.fork i a c)
    (¬InChild a → (zFork P a c (s.running i)).2 = parentResult a ∧
      s'.calls = s.calls ++ parentCalls P t ∧ s'.base = s.base ∧
      zPthreadSelf (s'.running i) = BitVec.ofNat 64 t ∧
      zLockOwnerGetSelf (s'.running i) = zLockOwnerGetSelf (s.running i)) ∧
    (InChild a → (zFork P a c (s.running i)).2 = 0 ∧
      s'.calls = s.calls ++ childCalls P t ∧ (∀ j, s'.base j ≠ none ↔ j = i) ∧
      zPthreadSelf (s'.running i) = BitVec.ofNat 64 P.main ∧
      zLockOwnerGetSelf (s'.running i) =
        (if t = P.main then c.threadSelf
          else (slot s.mem P.main tsdMachThreadSelf).setWidth 32) ∧
      s'.pages = s.pages) := by
  intro s'
  have hs := (identified_inductive P).reachable h
  have hs' : Identified P s' := (step_identified hs _ he).1
  obtain ⟨-, hspare, hpid⟩ := he
  obtain ⟨hne, hfits⟩ := hs.placed i t ht
  refine ⟨fun ha => ?_, fun ha => ?_⟩
  · obtain ⟨m', g, hspares, hfork⟩ := zFork_parent c (.inr ⟨i, ht⟩) hspare
      (hs.guarded_apart ht) ht.gs (hs.names i t ht) hfits ha hpid
    have hnext : s' = { s with toProcess := (zFork P a c (s.running i)).1 } := if_neg ha
    rw [hfork] at hnext ⊢
    have ht' : Runs s' i t := by rw [hnext]; exact ht
    refine ⟨rfl, by rw [hnext]; rfl, by rw [hnext], ht'.self (hs'.names i t ht'), ?_⟩
    have hslot : slot s'.mem t tsdMachThreadSelf = slot s.mem t tsdMachThreadSelf := by
      rw [hnext]
      exact hspares t (.inr ⟨i, ht⟩) _ (by simp)
    rw [ht'.owner, ht.owner, hslot]
  · obtain ⟨hret, hgs, hnames, hcalls, hpages, -, hport⟩ := zFork_child c (.inr ⟨i, ht⟩)
      (.inl rfl) hspare (hs.fromMain i t ht) ht.gs (hs.names i t ht) hne hfits ha
    have hnext : s' = { toProcess := (zFork P a c (s.running i)).1
                        base := Function.update (fun _ => none) i
                          (some (zFork P a c (s.running i)).1.gs)
                        port := Function.update s.port i c.threadSelf } := if_pos ha
    have ht' : Runs s' i P.main := by
      rw [hnext, Runs]
      dsimp only
      rw [Function.update_self, hgs]
    refine ⟨hret, by rw [hnext]; exact hcalls, fun j => ?_, ht'.self (hs'.names i _ ht'), ?_, ?_⟩
    · rw [hnext]
      by_cases hj : j = i <;> simp [hj]
    · have hslot : slot s'.mem P.main tsdMachThreadSelf = slot (zFork P a c (s.running i)).1.mem
          P.main tsdMachThreadSelf := by rw [hnext]
      rw [ht'.owner, hslot, hport]
      split_ifs
      · rw [BitVec.setWidth_setWidth_of_le _ (by decide), BitVec.setWidth_eq]
      · rfl
    · rw [hnext]
      exact hpages.trans hs.pages

def childAnswers : ChildAnswers := ⟨0x403, 0x407, 2, ⟨0x4f, 0⟩, 0x503, 0x507, 2⟩

def inChild : ForkAnswer := .ok (77, 1)

/-- `EAGAIN` -/
def refused : ForkAnswer := .error ⟨35, by decide⟩

theorem smallFork_enabled {i t : ℕ} (ht : Runs twoThreads i t) {a : ForkAnswer}
    (ha : ∀ rax, a ≠ .ok (rax, 0)) :
    Enabled smallProgram twoThreads (.fork i a childAnswers) :=
  ⟨fun hnone => (by cases hnone.symm.trans ht), fun _ _ _ _ _ _ => rfl,
    fun rax heq => absurd heq (ha rax)⟩

def afterRefused : State ℕ := next smallProgram twoThreads (.fork 0 refused childAnswers)

def afterFork : State ℕ := next smallProgram twoThreads (.fork 1 inChild childAnswers)

theorem fork_goes_on_second :
    ((zFork smallProgram refused childAnswers (twoThreads.running 0)).2 = -1 ∧
      afterRefused.calls = twoThreads.calls ++ [(7, 0x1000), (8, 0x1000)] ∧
      afterRefused.base = twoThreads.base ∧ zPthreadSelf (afterRefused.running 0) = 0x1000 ∧
      zLockOwnerGetSelf (afterRefused.running 0) = zLockOwnerGetSelf (twoThreads.running 0)) ∧
    (zFork smallProgram inChild childAnswers (twoThreads.running 1)).2 = 0 ∧
      afterFork.calls = twoThreads.calls ++ [(7, 0x10000), (9, 0x1000), (10, 0x1000)] ∧
      (∀ j, afterFork.base j ≠ none ↔ j = 1) ∧ zPthreadSelf (afterFork.running 1) = 0x1000 ∧
      zLockOwnerGetSelf (afterFork.running 1) =
        (slot twoThreads.mem 0x1000 tsdMachThreadSelf).setWidth 32 ∧
      afterFork.pages = twoThreads.pages := by
  obtain ⟨hmain, hsecond, -⟩ := twoThreads_next
  have hreachable := twoThreads_reachable.reachable
  have hrefused : ∀ rax, refused ≠ .ok (rax, 0) := nofun
  have hchild : ∀ rax, inChild ≠ .ok (rax, 0) := fun rax heq =>
    absurd (Prod.mk.inj (Except.ok.inj heq)).2 (by decide)
  exact ⟨(fork_goes_on hreachable hmain (smallFork_enabled hmain hrefused)).1 id,
    (fork_goes_on hreachable hsecond (smallFork_enabled hsecond hchild)).2
      (by decide : InChild (.ok (77, 1)))⟩

end ProcessFork

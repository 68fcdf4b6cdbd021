import LibSystemCall.ContextSwitch

/-! # The signal mask of a context

`z_sigprocmask` is given `how` and does not pass it on, so that the system call finds each
argument one place too early. -/
namespace ContextMask

open StructLayout ContextMachine ContextStart ContextSwap ContextSwitch GuardedSystem

def SIG_BLOCK : BitVec 32 := 1
def SIG_UNBLOCK : BitVec 32 := 2
def SIG_SETMASK : BitVec 32 := 3

/-- SIGKILL and SIGSTOP cannot be blocked. -/
def sigcantmask : BitVec 32 := 0x10100

def sigmaskOf (uctx : BitVec 64) : BitVec 64 :=
  uctx + BitVec.ofNat 64 (ucontextShape.offset .ucSigmask)

def contextWith (p : BitVec 64) : BitVec 64 :=
  p - BitVec.ofNat 64 (ucontextShape.offset .ucSigmask)

def loadMask (m : Machine) (p : BitVec 64) : BitVec 32 := (m.ctx (contextWith p)).sigmask

def storeMask (m : Machine) (p : BitVec 64) (mask : BitVec 32) : Machine :=
  m.setCtx (contextWith p) { m.ctx (contextWith p) with sigmask := mask }

/-- The mask that a call asks for; none if `how` is invalid. -/
def askedMask (mask how set : BitVec 32) : Option (BitVec 32) :=
  if how = SIG_BLOCK then some (mask ||| set)
  else if how = SIG_UNBLOCK then some (mask &&& ~~~set)
  else if how = SIG_SETMASK then some set
  else none

/-- The system call: a null `set` asks for nothing, and a null `oset` takes nothing. -/
def sysSigprocmask (m : Machine) (how : BitVec 32) (set oset : BitVec 64) : Machine :=
  let asked :=
    if set = 0 then some m.mask
    else (askedMask m.mask how (loadMask m set)).map (· &&& ~~~sigcantmask)
  match asked with
  | none => m
  | some mask =>
    let m' := { m with mask := mask }
    if oset = 0 then m' else storeMask m' oset m.mask

/-- `z_syscall_unix(SYS_sigprocmask, set, oset)`; the third argument of the system call is what
`%rcx` holds. -/
def zSigprocmask (m : Machine) (_how : BitVec 32) (set oset rcx : BitVec 64) : Machine :=
  sysSigprocmask m (set.setWidth 32) oset rcx

def saveCall (m : Machine) (uctx rcx : BitVec 64) : Machine :=
  zSigprocmask m 0 0 (sigmaskOf uctx) rcx

def restoreCall (m : Machine) (uctx rcx : BitVec 64) : Machine :=
  zSigprocmask m SIG_SETMASK (sigmaskOf uctx) 0 rcx

theorem restoreCall_mask (m : Machine) (uctx rcx : BitVec 64) :
    (restoreCall m uctx rcx).mask = m.mask := by
  unfold restoreCall zSigprocmask sysSigprocmask
  rw [if_pos rfl]
  dsimp only
  split <;> rfl

theorem saveCall_null (m : Machine) {uctx : BitVec 64} (h : sigmaskOf uctx ≠ 0)
    (rcx : BitVec 64) : saveCall m uctx rcx = m := by
  unfold saveCall zSigprocmask sysSigprocmask
  rw [if_neg h]
  rfl

def saves : Event → Option (BitVec 64)
  | .getcontext _ uctx _ => some uctx
  | .swapcontext _ oucp ucp _ => if oucp = 0 ∨ ucp = 0 then none else some oucp
  | _ => none

def answersOf : Event → Option Answers
  | .getcontext a _ _ | .setcontext a _ | .swapcontext a _ _ _ | .library a => some a
  | _ => none

section

variable [CodeAddresses] (f : Frame)

def Obeys (s : State) (e : Event) : Prop :=
  ∃ rcx, ∀ a, answersOf e = some a →
    (∀ uctx, saves e = some uctx →
      a.oldMask = ((saveCall s.machine uctx rcx).ctx uctx).sigmask) ∧
    ∀ uctx, target f s e = some uctx → a.newMask = (restoreCall s.machine uctx rcx).mask

/-- `saved` has the mask that was in force when a context was saved last. -/
structure MaskState where
  base : State
  saved : BitVec 64 → Option (BitVec 32)

def nextMask (s : MaskState) (e : Event) : MaskState where
  base := next f s.base e
  saved :=
    match saves e with
    | some uctx => Function.update s.saved uctx (some s.base.machine.mask)
    | none => s.saved

def maskSystem : System MaskState Event where
  Initial s := Initial s.base ∧ ∀ uctx, s.saved uctx = none
  Enabled s e := Enabled s.base e ∧ Obeys f s.base e
  next := nextMask f

def Restores (s : MaskState) (e : Event) : Prop :=
  ∀ uctx mask, target f s.base e = some uctx → s.saved uctx = some mask →
    (nextMask f s e).base.machine.mask = mask

def InForce (s : MaskState) (e : Event) : Prop :=
  ∀ uctx mask, target f s.base e = some uctx → s.saved uctx = some mask →
    s.base.machine.mask = mask

variable {f}

theorem resumed_mask {s : State} {e : Event} (he : Enabled s e) {uctx : BitVec 64}
    (htarget : target f s e = some uctx) :
    ∃ a, answersOf e = some a ∧ (next f s e).machine.mask = a.newMask := by
  cases e with
  | user | getcontext | makecontext | swapcontext => cases htarget
  | setcontext a u => exact ⟨a, rfl, (zSetcontext_resumed a s.machine u).2.1⟩
  | library a =>
    refine ⟨a, rfl, ?_⟩
    rcases target_library htarget with ⟨hswap, hfirst, rfl⟩ | ⟨hswap, hstart, rfl⟩
    · simp only [next, if_pos hswap, if_pos hfirst, swapRest]
      exact (zSetcontext_resumed a _ _).2.1
    · have hreturn := library_rip he.1 hswap hstart
      rw [done_next hreturn (he.2 hreturn)]
      exact (zSetcontext_resumed a _ _).2.1

theorem resume_keeps_mask {s : State} {e : Event} (he : Enabled s e) (hobeys : Obeys f s e)
    {uctx : BitVec 64} (htarget : target f s e = some uctx) :
    (next f s e).machine.mask = s.machine.mask := by
  obtain ⟨a, hanswers, hmask⟩ := resumed_mask he htarget
  obtain ⟨rcx, hcalls⟩ := hobeys
  rw [hmask, (hcalls a hanswers).2 uctx htarget, restoreCall_mask]

def maskSet : Event → Option (BitVec 32)
  | .user m => some m.mask
  | _ => none

theorem zMakecontext_mask (m : Machine) (ucp start : BitVec 64) (argc : ℤ)
    (ap : ℕ → BitVec 64) : (zMakecontext m ucp start argc ap).mask = m.mask := by
  unfold zMakecontext
  split
  · rfl
  · dsimp only
    split <;> rfl

theorem swapEntry_mask (a : Answers) (m : Machine) (oucp ucp : BitVec 64) :
    (swapEntry f a m oucp ucp).mask = m.mask := by
  unfold swapEntry
  dsimp only
  rw [(zGetcontext_saved a rfl).mask]
  rfl

theorem library_mask {s : State} {a : Answers}
    (hnone : target f s (.library a) = none) :
    (next f s (.library a)).machine.mask = s.machine.mask := by
  unfold target at hnone
  dsimp only at hnone
  unfold next
  dsimp only
  split at hnone
  · next hswap =>
    split at hnone
    · cases hnone
    · next hlast =>
      rw [if_pos hswap, if_neg hlast]
      simp only [swapRest, if_neg hlast]
      rfl
  · next hswap =>
    split at hnone
    · next hstart =>
      rw [if_neg hswap, if_pos hstart]
      rfl
    · cases hnone

theorem next_mask {s : State} {e : Event} (he : Enabled s e) (hobeys : Obeys f s e) :
    (next f s e).machine.mask = (maskSet e).getD s.machine.mask := by
  cases e with
  | user m => rfl
  | getcontext a uctx ra => exact (zGetcontext_saved a rfl).mask
  | makecontext ucp start argc ap =>
    have h := zMakecontext_mask s.machine ucp start argc ap
    unfold next
    dsimp only
    split
    · exact h
    · split <;> exact h
  | setcontext a uctx => exact resume_keeps_mask he hobeys rfl
  | swapcontext a oucp ucp ra =>
    unfold next zSwapcontext
    dsimp only
    split
    · rfl
    · exact swapEntry_mask a _ oucp ucp
  | library a =>
    cases htarget : target f s (.library a) with
    | none => exact library_mask htarget
    | some uctx => exact resume_keeps_mask he hobeys htarget

theorem run_mask {s : MaskState} {es : List Event}
    (h : ValidTrace (maskSystem f) anyStep s es) :
    (runTrace (maskSystem f) s es).base.machine.mask =
      ((es.filterMap maskSet).getLast?).getD s.base.machine.mask := by
  induction es generalizing s with
  | nil => rfl
  | cons e es ih =>
    obtain ⟨⟨he, -⟩, hrest⟩ := h
    have hnext : ((maskSystem f).next s e).base.machine.mask =
        (maskSet e).getD s.base.machine.mask := next_mask he.1 he.2
    rw [runTrace, ih hrest, hnext]
    cases hset : maskSet e with
    | none => rw [List.filterMap_cons_none hset, Option.getD_none]
    | some mask =>
      rw [List.filterMap_cons_some hset, List.getLast?_cons, Option.getD_some, Option.getD_some]

theorem restores_iff {s : MaskState} {e : Event} (he : (maskSystem f).Enabled s e) :
    Restores f s e ↔ InForce f s e := by
  have hkeeps : ∀ uctx, target f s.base e = some uctx →
      (nextMask f s e).base.machine.mask = s.base.machine.mask :=
    fun _ htarget => resume_keeps_mask he.1 he.2 htarget
  constructor
  · intro h uctx mask htarget hsaved
    rw [← hkeeps uctx htarget]
    exact h uctx mask htarget hsaved
  · intro h uctx mask htarget hsaved
    rw [hkeeps uctx htarget]
    exact h uctx mask htarget hsaved

/-- In a run every resumed context gets its mask back exactly if that mask is in force each time
already. -/
theorem masks_restored_iff (s : MaskState) (es : List Event) :
    ValidTrace (maskSystem f) (Restores f) s es ↔
      ValidTrace (maskSystem f) (InForce f) s es :=
  validTrace_congr (fun _ _ he => restores_iff he) s es

end

local instance : CodeAddresses := placed

def blocked : Machine := { saved.machine with mask := 1 }

def blockedRun : List Event :=
  [.getcontext answers 0x5000 0x8010, .user blocked,
    .setcontext { answers with newMask := 1 } 0x5000]

theorem blocked_mask_stays :
    ∃ s : MaskState, (maskSystem pushedFrame).Initial s ∧
      ValidTrace (maskSystem pushedFrame) anyStep s blockedRun ∧
      ¬ValidTrace (maskSystem pushedFrame) (Restores pushedFrame) s blockedRun := by
  have hrip : UserCode saved.machine.rip := by decide +kernel
  refine ⟨⟨booted, fun _ => none⟩, ⟨booted_initial, fun _ => rfl⟩, ?_, ?_⟩
  · refine ⟨⟨⟨⟨by decide, by decide, by decide⟩, 0, ?_⟩, trivial⟩,
      ⟨⟨⟨hrip, .inl hrip⟩, 0, ?_⟩, trivial⟩, ⟨⟨hrip, 0, ?_⟩, trivial⟩, trivial⟩
    · intro a ha
      obtain rfl := Option.some.inj ha
      constructor
      · intro uctx hsaves
        obtain rfl := Option.some.inj hsaves
        rw [saveCall_null _ (by decide)]
        rfl
      · intro uctx htarget
        cases htarget
    · intro a ha
      cases ha
    · intro a ha
      obtain rfl := Option.some.inj ha
      constructor
      · intro uctx hsaves
        cases hsaves
      · intro uctx htarget
        rw [restoreCall_mask]
        rfl
  · rintro ⟨-, -, ⟨-, hrestores⟩, -⟩
    have hzero : (1 : BitVec 32) = 0 := hrestores 0x5000 0 rfl rfl
    exact absurd hzero (by decide)

end ContextMask

import LibSystemCall.ContextSwap
import LibSystemCall.GuardedSystem

/-! # Contexts that switch among themselves

User code calls the routines in any order, for contexts that were set up before. It does not
jump into the library. -/
namespace ContextSwitch

open ContextMachine ContextStart ContextSwap GuardedSystem

def finished (m : Machine) : BitVec 64 := (ctxStartTail m).reg .rdi
def successor (m : Machine) : BitVec 64 := (m.ctx (finished m)).link

/-- There is no machine after `z_exit`. -/
def zCtxDone (a : Answers) (m : Machine) (ucp : BitVec 64) : Option Machine :=
  let c := m.ctx ucp
  if c.link = 0 then none
  else some (zSetcontext a (m.setCtx ucp { c with mcsize := 0 }) c.link)

theorem zCtxDone_resumed (a : Answers) {m : Machine} (h : successor m ≠ 0) :
    (zCtxDone a (ctxStartTail m) (finished m)).getD m = zSetcontext a
      ((ctxStartTail m).setCtx (finished m) { m.ctx (finished m) with mcsize := 0 })
      (successor m) := by
  have hctx : (ctxStartTail m).ctx = m.ctx := rfl
  have hlink : (m.ctx (finished m)).link ≠ 0 := h
  simp only [zCtxDone, hctx, if_neg hlink, Option.getD_some]
  rfl

theorem bit_set (x : BitVec 32) : (x ||| UCF_SWAPPED) &&& UCF_SWAPPED ≠ 0 := by
  intro h
  have hbit := congrArg (·.getLsbD 31) h
  simp [UCF_SWAPPED] at hbit

structure SameSaved (uctx : BitVec 64) (c d : Ucontext) : Prop where
  state : d.state = c.state
  onstack : d.onstack = c.onstack
  own : c.mcontext = mcontextOf uctx → d.mcontext = mcontextOf uctx

theorem SameSaved.refl (uctx : BitVec 64) (c : Ucontext) : SameSaved uctx c c := ⟨rfl, rfl, id⟩

theorem setCtx_field {α : Type} (g : Ucontext → α) (m : Machine) {p uctx : BitVec 64}
    {c : Ucontext} (h : g c = g (m.ctx p)) : g ((m.setCtx p c).ctx uctx) = g (m.ctx uctx) := by
  simp only [Machine.setCtx]
  by_cases heq : uctx = p
  · rw [heq, Function.update_self, h]
  · rw [Function.update_of_ne heq]

theorem setCtx_same {m : Machine} {p : BitVec 64} {c : Ucontext} (h : SameSaved p (m.ctx p) c)
    (d : BitVec 64) : SameSaved d (m.ctx d) ((m.setCtx p c).ctx d) := by
  simp only [Machine.setCtx]
  by_cases hd : d = p
  · subst hd
    rw [Function.update_self]
    exact h
  · rw [Function.update_of_ne hd]
    exact .refl _ _

theorem zSetcontext_same (a : Answers) (m : Machine) (uctx d : BitVec 64) :
    SameSaved d (m.ctx d) ((zSetcontext a m uctx).ctx d) := by
  rw [(zSetcontext_resumed a m uctx).2.2]
  exact setCtx_same (c := { m.ctx uctx with mcontext := mcontextOf uctx })
    ⟨rfl, rfl, fun _ => rfl⟩ d

section

variable [CodeAddresses]

inductive Origin where
  | unset
  | got
  | made
  | swapped (call : Call)

def Origin.call : Origin → Option Call
  | .swapped call => some call
  | _ => none

/-- `inside` is the call of `z_swapcontext` whose `z_getcontext` has just returned, `executed`
has the calls that have come to their `z_setcontext`, and `invalid` the contexts that were
refused or have finished and were not saved or made since. -/
structure State where
  machine : Machine
  errno : ℤ
  origin : BitVec 64 → Origin
  invalid : BitVec 64 → Bool
  inside : Option Call
  calls : ℕ
  executed : List ℕ

/-- `ra` is the return address of a call; `library` is the code of the library at `rip`. -/
inductive Event where
  | user (m : Machine)
  | getcontext (a : Answers) (uctx ra : BitVec 64)
  | makecontext (ucp start : BitVec 64) (argc : ℤ) (ap : ℕ → BitVec 64)
  | setcontext (a : Answers) (uctx : BitVec 64)
  | swapcontext (a : Answers) (oucp ucp ra : BitVec 64)
  | library (a : Answers)

def UserCode (p : BitVec 64) : Prop := p ≠ ctxStart ∧ p ≠ ctxStartReturn ∧ p ≠ swapReturn

instance (p : BitVec 64) : Decidable (UserCode p) := inferInstanceAs (Decidable (_ ∧ _ ∧ _))

def UserChange (c d : Ucontext) : Prop :=
  d = { c with stack := d.stack, link := d.link, sigmask := d.sigmask }

def Enabled (s : State) : Event → Prop
  | .user m => UserCode s.machine.rip ∧ (UserCode m.rip ∨ m.rip = ctxStartReturn)
  | .getcontext _ uctx ra => UserCode s.machine.rip ∧ uctx ≠ 0 ∧ UserCode ra
  | .makecontext _ start _ _ => UserCode s.machine.rip ∧ UserCode start
  | .setcontext _ _ => UserCode s.machine.rip
  | .swapcontext _ _ _ ra => UserCode s.machine.rip ∧ UserCode ra
  | .library _ => ¬UserCode s.machine.rip ∧
      (s.machine.rip = ctxStartReturn → successor s.machine ≠ 0)

variable (f : Frame)

def newCall (s : State) (oucp ucp ra : BitVec 64) : Call :=
  ⟨s.calls, ⟨oucp, ucp, s.machine.preserved⟩, s.machine.reg .rsp - 8, ra⟩

def resume (a : Answers) (s : State) (uctx : BitVec 64) : State :=
  { s with machine := zSetcontext a s.machine uctx, inside := (s.origin uctx).call }

def next (s : State) : Event → State
  | .user m => { s with machine := m }
  | .getcontext a uctx ra =>
    { s with
      machine := zGetcontext a (s.machine.call uctx ra)
      origin := Function.update s.origin uctx .got
      invalid := Function.update s.invalid uctx false }
  | .makecontext ucp start argc ap =>
    let s' := { s with machine := zMakecontext s.machine ucp start argc ap }
    if ucp = 0 then s'
    else if Refused (s.machine.ctx ucp) argc then
      { s' with invalid := Function.update s.invalid ucp true }
    else
      { s' with
        origin := Function.update s.origin ucp .made
        invalid := Function.update s.invalid ucp false }
  | .setcontext a uctx => resume a s uctx
  | .swapcontext a oucp ucp ra =>
    let (m, errno) := zSwapcontext f a (s.machine.push ra) s.errno oucp ucp
    let s' := { s with machine := m, errno := errno }
    if oucp = 0 ∨ ucp = 0 then s'
    else
      let call := newCall s oucp ucp ra
      { s' with
        origin := Function.update s.origin oucp (.swapped call)
        invalid := Function.update s.invalid oucp false
        inside := some call
        calls := s.calls + 1 }
  | .library a =>
    let m := s.machine
    if m.rip = swapReturn then
      let s' := { s with machine := swapRest f a m, inside := none }
      if FirstReturn f m then
        { s' with
          inside := (s.origin (localsOf f m).ucp).call
          executed := s.executed ++ s.inside.toList.map Call.number }
      else s'
    else if m.rip = ctxStart then { s with machine := zCtxStart m }
    else
      { s with
        machine := (zCtxDone a (ctxStartTail m) (finished m)).getD m
        invalid := Function.update s.invalid (finished m) true
        inside := (s.origin (successor m)).call }

def target (s : State) : Event → Option (BitVec 64)
  | .setcontext _ uctx => some uctx
  | .library _ =>
    let m := s.machine
    if m.rip = swapReturn then
      if FirstReturn f m then some (localsOf f m).ucp else none
    else if m.rip = ctxStart then none
    else some (successor m)
  | _ => none

/-- The contexts of a call were set up before, user code changes in them what it may change, and
no suspended stack has changed when it is needed again. -/
def orderly (s : State) : Event → Prop
  | .user m => ∀ c, s.origin c = .unset ∨ UserChange (s.machine.ctx c) (m.ctx c)
  | .getcontext _ _ _ => True
  | .makecontext ucp _ _ _ => ucp = 0 ∨ s.origin ucp ≠ .unset
  | .setcontext _ uctx => s.origin uctx ≠ .unset
  | .swapcontext _ oucp ucp _ => ucp = 0 ∨ ucp = oucp ∨ s.origin ucp ≠ .unset
  | .library _ =>
      (s.machine.rip = ctxStartReturn → s.origin (successor s.machine) ≠ .unset) ∧
      (s.machine.rip = ctxStart → UserCode (s.machine.word (s.machine.reg .rsp))) ∧
      ∀ call, s.inside = some call → call.number ∈ s.executed → FrameIntact f s.machine call

def Initial (s : State) : Prop :=
  UserCode s.machine.rip ∧ (∀ c, s.origin c = .unset ∧ s.invalid c = false) ∧ s.inside = none ∧
    s.executed = []

def switchSystem : System State Event := ⟨Initial, Enabled, next f⟩

structure SwapKept (s : State) (uctx : BitVec 64) (call : Call) : Prop where
  saved : SavedBy f (s.machine.ctx uctx) call
  oucp : call.locals.oucp = uctx
  bit : call.number ∈ s.executed → (s.machine.ctx uctx).onstack &&& UCF_SWAPPED ≠ 0
  ran : call.number ∈ s.executed ∨ s.inside = some call
  ra : UserCode call.ra

def OriginKept (s : State) (uctx : BitVec 64) : Prop :=
  match s.origin uctx with
  | .unset => True
  | .got => UserCode ((s.machine.ctx uctx).state .rip)
  | .made => (s.machine.ctx uctx).state .rip = ctxStart
  | .swapped call => SwapKept f s uctx call

structure FirstKept (s : State) (call : Call) : Prop where
  bit : (s.machine.ctx call.locals.oucp).onstack &&& UCF_SWAPPED = 0
  intact : FrameIntact f s.machine call
  fresh : call.number < s.calls
  origin : s.origin call.locals.oucp = .swapped call
  setUp : s.origin call.locals.ucp ≠ .unset

def InsideKept (s : State) : Prop :=
  match s.inside with
  | none => s.machine.rip ≠ swapReturn
  | some call => AtReturn f s.machine call ∧ UserCode call.ra ∧
      (call.number ∈ s.executed →
        (s.machine.ctx call.locals.oucp).onstack &&& UCF_SWAPPED ≠ 0) ∧
      (call.number ∉ s.executed → FirstKept f s call)

structure Kept (s : State) : Prop where
  origins : ∀ uctx, OriginKept f s uctx
  own : ∀ uctx, s.origin uctx ≠ .unset → (s.machine.ctx uctx).mcontext = mcontextOf uctx
  inside : InsideKept f s
  nodup : s.executed.Nodup
  earlier : ∀ n ∈ s.executed, n < s.calls

variable {f}

theorem saved_same {c d : Ucontext} {call : Call} (h : SavedBy f c call)
    (hstate : d.state = c.state) : SavedBy f d call := by
  obtain ⟨hrip, hrsp, hpreserved⟩ := h
  refine ⟨?_, ?_, ?_⟩
  · rw [hstate, hrip]
  · rw [hstate, hrsp]
  · rw [← hpreserved]
    simp only [Ucontext.preserved, hstate]

theorem OriginKept.same {s s' : State} {uctx : BitVec 64} (h : OriginKept f s uctx)
    (hran : ∀ call, s.origin uctx = .swapped call → call.number ∈ s.executed)
    (hctx : s.origin uctx ≠ .unset → SameSaved uctx (s.machine.ctx uctx) (s'.machine.ctx uctx))
    (horigin : s'.origin uctx = s.origin uctx) (hexecuted : s.executed ⊆ s'.executed) :
    OriginKept f s' uctx := by
  unfold OriginKept at *
  rw [horigin]
  cases hs : s.origin uctx with
  | unset => trivial
  | got =>
    have hsame := hctx (hs ▸ Origin.noConfusion)
    rw [hs] at h
    simp only [hsame.state]
    exact h
  | made =>
    have hsame := hctx (hs ▸ Origin.noConfusion)
    rw [hs] at h
    simp only [hsame.state]
    exact h
  | swapped call =>
    have hsame := hctx (hs ▸ Origin.noConfusion)
    rw [hs] at h
    have hmem := hran call hs
    refine ⟨saved_same h.saved hsame.state, h.oucp, fun _ => ?_, .inl (hexecuted hmem), h.ra⟩
    rw [hsame.onstack]
    exact h.bit hmem

structure Settled (f : Frame) (s : State) : Prop where
  origins : ∀ uctx, OriginKept f s uctx
  own : ∀ uctx, s.origin uctx ≠ .unset → (s.machine.ctx uctx).mcontext = mcontextOf uctx
  ran : ∀ uctx call, s.origin uctx = .swapped call → call.number ∈ s.executed
  nodup : s.executed.Nodup
  earlier : ∀ n ∈ s.executed, n < s.calls

theorem Kept.settled {s : State} (h : Kept f s) (hrip : s.machine.rip ≠ swapReturn) :
    s.inside = none ∧ Settled f s := by
  have hnone : s.inside = none := by
    have hinside := h.inside
    unfold InsideKept at hinside
    cases hs : s.inside with
    | none => rfl
    | some call =>
      rw [hs] at hinside
      exact absurd hinside.1.rip hrip
  refine ⟨hnone, h.origins, h.own, fun uctx call horigin => ?_, h.nodup, h.earlier⟩
  have hkept := h.origins uctx
  simp only [OriginKept, horigin] at hkept
  refine hkept.ran.resolve_right fun hsome => ?_
  rw [hnone] at hsome
  cases hsome

theorem Settled.kept {s : State} (h : Settled f s) (hnone : s.inside = none)
    (hrip : s.machine.rip ≠ swapReturn) : Kept f s := by
  refine ⟨h.origins, h.own, ?_, h.nodup, h.earlier⟩
  simp only [InsideKept, hnone]
  exact hrip

theorem Settled.unchanged {s s' : State} (h : Settled f s)
    (hctx : ∀ c, s.origin c ≠ .unset → SameSaved c (s.machine.ctx c) (s'.machine.ctx c))
    (horigin : s'.origin = s.origin) (hexecuted : s'.executed = s.executed)
    (hcalls : s'.calls = s.calls) : Settled f s' := by
  refine ⟨fun c => ?_, fun c hset => ?_, fun c call hc => ?_, hexecuted ▸ h.nodup, ?_⟩
  · exact (h.origins c).same (h.ran c) (hctx c) (congrFun horigin c)
      (hexecuted ▸ List.Subset.refl _)
  · rw [horigin] at hset
    exact (hctx c hset).own (h.own c hset)
  · rw [horigin] at hc
    rw [hexecuted]
    exact h.ran c call hc
  · rw [hexecuted, hcalls]
    exact h.earlier

theorem Settled.others {s s' : State} (h : Settled f s) {uctx : BitVec 64}
    (hself : OriginKept f s' uctx)
    (hctx : ∀ d, d ≠ uctx → s'.machine.ctx d = s.machine.ctx d)
    (horigin : ∀ d, d ≠ uctx → s'.origin d = s.origin d) (hexecuted : s'.executed = s.executed)
    (hown : (s'.machine.ctx uctx).mcontext = mcontextOf uctx) :
    (∀ c, OriginKept f s' c) ∧
      ∀ c, s'.origin c ≠ .unset → (s'.machine.ctx c).mcontext = mcontextOf c := by
  constructor
  · intro c
    by_cases hc : c = uctx
    · rw [hc]
      exact hself
    · refine (h.origins c).same (h.ran c) (fun _ => ?_) (horigin c hc)
        (hexecuted ▸ List.Subset.refl _)
      rw [hctx c hc]
      exact .refl _ _
  · intro c hset
    by_cases hc : c = uctx
    · rw [hc]
      exact hown
    · rw [horigin c hc] at hset
      rw [hctx c hc]
      exact h.own c hset

theorem resume_kept (a : Answers) {s : State} (h : Settled f s) {uctx : BitVec 64}
    (hset : s.origin uctx ≠ .unset) : Kept f (resume a s uctx) := by
  obtain ⟨hresumed, -, -⟩ := zSetcontext_resumed a s.machine uctx
  have hsame := zSetcontext_same a s.machine uctx
  have hsettled : Settled f (resume a s uctx) := h.unchanged (fun c _ => hsame c) rfl rfl rfl
  refine ⟨hsettled.origins, hsettled.own, ?_, h.nodup, h.earlier⟩
  have hkept := h.origins uctx
  unfold InsideKept
  unfold OriginKept at hkept
  cases hs : s.origin uctx with
  | unset => exact absurd hs hset
  | got =>
    rw [hs] at hkept
    simp only [resume, hs, Origin.call]
    rw [hresumed.rip]
    exact hkept.2.2
  | made =>
    rw [hs] at hkept
    simp only [resume, hs, Origin.call]
    rw [hresumed.rip, hkept]
    exact start_ne_swapReturn
  | swapped call =>
    rw [hs] at hkept
    have hmem := h.ran uctx call hs
    simp only [resume, hs, Origin.call]
    refine ⟨hkept.saved.resumed hresumed, hkept.ra, fun _ => ?_, fun hnew => absurd hmem hnew⟩
    rw [hkept.oucp, (hsame uctx).onstack]
    exact hkept.bit hmem

theorem user_kept {s : State} (h : Kept f s) {m : Machine}
    (he : Enabled s (.user m)) (hg : orderly f s (.user m)) : Kept f (next f s (.user m)) := by
  obtain ⟨hnone, hsettled⟩ := h.settled he.1.2.2
  have hctx : ∀ c, s.origin c ≠ .unset → SameSaved c (s.machine.ctx c) (m.ctx c) := by
    intro c hset
    have hchange : UserChange (s.machine.ctx c) (m.ctx c) := (hg c).resolve_left hset
    rw [hchange]
    exact ⟨rfl, rfl, id⟩
  have hafter : Settled f (next f s (.user m)) := hsettled.unchanged hctx rfl rfl rfl
  refine hafter.kept hnone ?_
  rcases he.2 with hrip | hrip
  · exact hrip.2.2
  · change m.rip ≠ swapReturn
    rw [hrip]
    exact startReturn_ne_swapReturn

theorem getcontext_kept {s : State} (h : Kept f s) {a : Answers} {uctx ra : BitVec 64}
    (he : Enabled s (.getcontext a uctx ra)) : Kept f (next f s (.getcontext a uctx ra)) := by
  obtain ⟨hnone, hsettled⟩ := h.settled he.1.2.2
  have hcalled := zGetcontext_called a s.machine uctx ra
  have hself : OriginKept f (next f s (.getcontext a uctx ra)) uctx := by
    simp only [OriginKept, next, Function.update_self]
    rw [hcalled.savedRip]
    exact he.2.2
  obtain ⟨horigins, hown⟩ := hsettled.others hself hcalled.others
    (fun d hd => Function.update_of_ne hd _ _) rfl hcalled.mcontext
  refine ⟨horigins, hown, ?_, h.nodup, h.earlier⟩
  simp only [InsideKept, next, hnone]
  rw [hcalled.rip]
  exact he.2.2.2.2

theorem zMakecontext_made {m : Machine} {ucp : BitVec 64} (start : BitVec 64) {argc : ℤ}
    (ap : ℕ → BitVec 64) (hucp : ucp ≠ 0) (hown : (m.ctx ucp).mcontext = mcontextOf ucp)
    (haccepted : ¬Refused (m.ctx ucp) argc) :
    let m' := zMakecontext m ucp start argc ap
    m'.rip = m.rip ∧ (m'.ctx ucp).state .rip = ctxStart ∧
      (m'.ctx ucp).mcontext = mcontextOf ucp ∧ ∀ d, d ≠ ucp → m'.ctx d = m.ctx d := by
  intro m'
  have hctx : m'.ctx = Function.update m.ctx ucp
      { m.ctx ucp with state := (m'.ctx ucp).state } ∧ (m'.ctx ucp).state .rip = ctxStart ∧
        m'.rip = m.rip := by
    simp only [m', zMakecontext, if_neg hucp, if_neg haccepted, hown, contextAt_mcontextOf,
      Machine.setCtx]
    rw [Function.update_self]
    refine ⟨rfl, ?_, trivial⟩
    simp only [Function.update_self]
  obtain ⟨hctx, hstate, hrip⟩ := hctx
  refine ⟨hrip, hstate, ?_, fun d hd => ?_⟩
  · rw [hctx, Function.update_self]
    exact hown
  · rw [hctx, Function.update_of_ne hd]

theorem makecontext_kept {s : State} (h : Kept f s) {ucp start : BitVec 64} {argc : ℤ}
    {ap : ℕ → BitVec 64} (he : Enabled s (.makecontext ucp start argc ap))
    (hg : orderly f s (.makecontext ucp start argc ap)) :
    Kept f (next f s (.makecontext ucp start argc ap)) := by
  obtain ⟨hnone, hsettled⟩ := h.settled he.1.2.2
  by_cases hucp : ucp = 0
  · have hsame : next f s (.makecontext ucp start argc ap) = s := by
      simp only [next, zMakecontext, if_pos hucp]
    rw [hsame]
    exact h
  · by_cases hrefused : Refused (s.machine.ctx ucp) argc
    · simp only [next, if_neg hucp, if_pos hrefused, zMakecontext_refused start ap hucp hrefused]
      have hctx := setCtx_same (m := s.machine) (p := ucp)
        (c := { s.machine.ctx ucp with mcsize := 0 }) ⟨rfl, rfl, id⟩
      have hafter : Settled f { s with
          machine := s.machine.setCtx ucp { s.machine.ctx ucp with mcsize := 0 }
          invalid := Function.update s.invalid ucp true } :=
        hsettled.unchanged (fun c _ => hctx c) rfl rfl rfl
      exact hafter.kept hnone he.1.2.2
    · have hown := h.own ucp (hg.resolve_left hucp)
      obtain ⟨hrip, hstate, hmcontext, hctx⟩ := zMakecontext_made start ap hucp hown hrefused
      have hself : OriginKept f (next f s (.makecontext ucp start argc ap)) ucp := by
        simp only [next, if_neg hucp, if_neg hrefused, OriginKept, Function.update_self]
        exact hstate
      simp only [next, if_neg hucp, if_neg hrefused] at hself ⊢
      obtain ⟨horigins, howns⟩ := hsettled.others hself hctx
        (fun d hd => Function.update_of_ne hd _ _) rfl hmcontext
      refine ⟨horigins, howns, ?_, h.nodup, h.earlier⟩
      simp only [InsideKept, hnone]
      rw [hrip]
      exact he.1.2.2

theorem swapcontext_kept {s : State} (h : Kept f s) {a : Answers} {oucp ucp ra : BitVec 64}
    (he : Enabled s (.swapcontext a oucp ucp ra))
    (hg : orderly f s (.swapcontext a oucp ucp ra)) :
    Kept f (next f s (.swapcontext a oucp ucp ra)) := by
  obtain ⟨hnone, hsettled⟩ := h.settled he.1.2.2
  have hra : (s.machine.push ra).word ((s.machine.push ra).reg .rsp) = ra :=
    Function.update_self _ _ _
  by_cases hnull : oucp = 0 ∨ ucp = 0
  · have hafter : Settled f (next f s (.swapcontext a oucp ucp ra)) := by
      simp only [next, zSwapcontext, if_pos hnull]
      exact hsettled.unchanged (fun _ _ => .refl _ _) rfl rfl rfl
    simp only [next, zSwapcontext, if_pos hnull] at hafter ⊢
    refine hafter.kept hnone ?_
    simp only [hra]
    exact he.2.2.2
  · let call := newCall s oucp ucp ra
    have hcall : (s.machine.push ra).reg .rsp = call.sp := rfl
    have hnew : call.number ∉ s.executed := fun hmem => Nat.lt_irrefl _ (h.earlier _ hmem)
    obtain ⟨hat, hintact, hsaved, hbit, hmcontext, hctx, -⟩ :=
      swapEntry_entered (f := f) a (m := s.machine.push ra) oucp ucp hcall hra rfl
    have hself : OriginKept f (next f s (.swapcontext a oucp ucp ra)) oucp := by
      simp only [next, zSwapcontext, if_neg hnull, OriginKept, Function.update_self]
      exact ⟨hsaved, rfl, fun hmem => absurd hmem hnew, .inr rfl, he.2⟩
    simp only [next, zSwapcontext, if_neg hnull] at hself ⊢
    obtain ⟨horigins, hown⟩ := hsettled.others hself hctx
      (fun d hd => Function.update_of_ne hd _ _) rfl hmcontext
    refine ⟨horigins, hown, ?_, h.nodup, fun n hn => Nat.lt_succ_of_lt (h.earlier n hn)⟩
    refine ⟨hat, he.2, fun hmem => absurd hmem hnew, fun _ => ⟨hbit, hintact,
      Nat.lt_succ_self _, Function.update_self _ _ _, ?_⟩⟩
    change Function.update s.origin oucp _ ucp ≠ .unset
    by_cases hsame : ucp = oucp
    · rw [hsame, Function.update_self]
      exact Origin.noConfusion
    · rw [Function.update_of_ne hsame]
      exact (hg.resolve_left (not_or.mp hnull).2).resolve_left hsame

def afterFirst (s : State) (call : Call) : State :=
  let c := s.machine.ctx call.locals.oucp
  { s with
    machine := s.machine.setCtx call.locals.oucp { c with onstack := c.onstack ||| UCF_SWAPPED }
    executed := s.executed ++ [call.number] }

theorem first_settled {s : State} (h : Kept f s) {call : Call} (hinside : s.inside = some call)
    (hfirst : FirstKept f s call) (hnew : call.number ∉ s.executed) :
    Settled f (afterFirst s call) := by
  let t := afterFirst s call
  let c := s.machine.ctx call.locals.oucp
  have hother : ∀ {d}, d ≠ call.locals.oucp → t.machine.ctx d = s.machine.ctx d :=
    fun hd => Function.update_of_ne hd _ _
  have hself : t.machine.ctx call.locals.oucp = { c with onstack := c.onstack ||| UCF_SWAPPED } :=
    Function.update_self _ _ _
  have hmem : call.number ∈ t.executed := List.mem_append_right _ List.mem_cons_self
  have hran : ∀ d other, d ≠ call.locals.oucp → s.origin d = .swapped other →
      other.number ∈ s.executed := by
    intro d other hd horigin
    have hkept := h.origins d
    simp only [OriginKept, horigin] at hkept
    refine hkept.ran.resolve_right fun hsome => hd ?_
    rw [hinside] at hsome
    rw [Option.some.inj hsome, hkept.oucp]
  refine ⟨fun d => ?_, fun d hd => ?_, fun d other horigin => ?_, ?_, fun n hn => ?_⟩
  · by_cases hd : d = call.locals.oucp
    · subst hd
      have hkept := h.origins call.locals.oucp
      have horigin : t.origin call.locals.oucp = .swapped call := hfirst.origin
      unfold OriginKept at hkept ⊢
      rw [hfirst.origin] at hkept
      rw [horigin]
      refine ⟨saved_same hkept.saved (by rw [hself]), rfl, fun _ => ?_, .inl hmem, hkept.ra⟩
      rw [hself]
      exact bit_set c.onstack
    · refine (h.origins d).same (fun _ => hran d _ hd) (fun _ => ?_) rfl
        (List.subset_append_left _ _)
      rw [hother hd]
      exact .refl _ _
  · by_cases heq : d = call.locals.oucp
    · subst heq
      exact (congrArg Ucontext.mcontext hself).trans (h.own _ hd)
    · rw [hother heq]
      exact h.own d hd
  · by_cases heq : d = call.locals.oucp
    · subst heq
      have hsame := Origin.swapped.inj (horigin.symm.trans hfirst.origin)
      rw [hsame]
      exact hmem
    · exact List.mem_append_left _ (hran d other heq horigin)
  · refine List.nodup_append.mpr ⟨h.nodup, List.pairwise_singleton _ _, ?_⟩
    intro n hn k hk heq
    rw [List.mem_singleton.mp hk] at heq
    exact hnew (heq ▸ hn)
  · rcases List.mem_append.mp hn with hn | hn
    · exact h.earlier n hn
    · exact List.mem_singleton.mp hn ▸ hfirst.fresh

theorem first_kept {s : State} (h : Kept f s) {call : Call} (hinside : s.inside = some call)
    (hfirst : FirstKept f s call) (hnew : call.number ∉ s.executed)
    (hat : AtReturn f s.machine call) (a : Answers) :
    Kept f (next f s (.library a)) ∧
      (next f s (.library a)).executed = s.executed ++ [call.number] ∧
      target f s (.library a) = some call.locals.ucp := by
  have hreturn := (hat.firstReturn hfirst.intact).mpr hfirst.bit
  have hlocals := hat.locals hfirst.intact
  have hnext : next f s (.library a) = resume a (afterFirst s call) call.locals.ucp := by
    simp only [next, if_pos hat.rip, if_pos hreturn, hlocals, hinside,
      hat.switched hfirst.intact hfirst.bit a]
    rfl
  rw [hnext]
  refine ⟨resume_kept a (first_settled h hinside hfirst hnew) hfirst.setUp, rfl, ?_⟩
  simp only [target, if_pos hat.rip, if_pos hreturn, hlocals]

theorem return_kept {s : State} (h : Kept f s) {call : Call} (hinside : s.inside = some call)
    (hran : call.number ∈ s.executed) (hintact : FrameIntact f s.machine call) (a : Answers) :
    Kept f (next f s (.library a)) ∧ Returned (next f s (.library a)).machine call ∧
      (next f s (.library a)).executed = s.executed ∧ target f s (.library a) = none := by
  have hkept := h.inside
  simp only [InsideKept, hinside] at hkept
  obtain ⟨hat, hra, hbit, -⟩ := hkept
  obtain ⟨hreturned, hctx⟩ := hat.returned hintact (hbit hran) a
  have hlast : ¬FirstReturn f s.machine :=
    fun hfirst => hbit hran ((hat.firstReturn hintact).mp hfirst)
  have hsettled : Settled f s := by
    refine ⟨h.origins, h.own, fun d other horigin => ?_, h.nodup, h.earlier⟩
    have hkept := h.origins d
    simp only [OriginKept, horigin] at hkept
    rcases hkept.ran with hmem | hsome
    · exact hmem
    · rw [hinside] at hsome
      exact Option.some.inj hsome ▸ hran
  simp only [next, target, if_pos hat.rip, if_neg hlast]
  have hafter : Settled f { s with machine := swapRest f a s.machine, inside := none } :=
    hsettled.unchanged (fun c _ => by rw [hctx]; exact .refl _ _) rfl rfl rfl
  refine ⟨hafter.kept rfl ?_, hreturned, trivial, trivial⟩
  simp only [hreturned.rip]
  exact hra.2.2

theorem start_kept {s : State} (h : Kept f s) {a : Answers} (hrip : s.machine.rip = ctxStart)
    (hg : orderly f s (.library a)) : Kept f (next f s (.library a)) := by
  have hother : s.machine.rip ≠ swapReturn := by
    rw [hrip]
    exact start_ne_swapReturn
  obtain ⟨hnone, hsettled⟩ := h.settled hother
  simp only [next, if_neg hother, if_pos hrip]
  have hafter : Settled f { s with machine := zCtxStart s.machine } :=
    hsettled.unchanged (fun _ _ => .refl _ _) rfl rfl rfl
  refine hafter.kept hnone ?_
  simp only [(zCtxStart_popped s.machine).1]
  exact (hg.2.1 hrip).2.2

theorem library_rip {p : BitVec 64} (h : ¬UserCode p) (hswap : p ≠ swapReturn)
    (hstart : p ≠ ctxStart) : p = ctxStartReturn := by
  by_contra hreturn
  exact h ⟨hstart, hreturn, hswap⟩

def afterDone (s : State) : State :=
  let ucp := finished s.machine
  { s with
    machine := (ctxStartTail s.machine).setCtx ucp { s.machine.ctx ucp with mcsize := 0 }
    invalid := Function.update s.invalid ucp true }

theorem done_next {s : State} {a : Answers} (hrip : s.machine.rip = ctxStartReturn)
    (hsuccessor : successor s.machine ≠ 0) :
    next f s (.library a) = resume a (afterDone s) (successor s.machine) := by
  have hswap : s.machine.rip ≠ swapReturn := by
    rw [hrip]
    exact startReturn_ne_swapReturn
  have hstart : s.machine.rip ≠ ctxStart := by
    rw [hrip]
    exact start_ne_startReturn.symm
  simp only [next, if_neg hswap, if_neg hstart, zCtxDone_resumed a hsuccessor]
  rfl

theorem done_kept {s : State} (h : Kept f s) {a : Answers}
    (hrip : s.machine.rip = ctxStartReturn) (he : Enabled s (.library a))
    (hg : orderly f s (.library a)) : Kept f (next f s (.library a)) := by
  have hswap : s.machine.rip ≠ swapReturn := by
    rw [hrip]
    exact startReturn_ne_swapReturn
  obtain ⟨-, hsettled⟩ := h.settled hswap
  have hsame : SameSaved (finished s.machine) (s.machine.ctx (finished s.machine))
      { s.machine.ctx (finished s.machine) with mcsize := 0 } := ⟨rfl, rfl, id⟩
  have hafter : Settled f (afterDone s) :=
    hsettled.unchanged (fun d _ => setCtx_same (m := ctxStartTail s.machine) hsame d) rfl rfl rfl
  rw [done_next hrip (he.2 hrip)]
  exact resume_kept a hafter (hg.1 hrip)

theorem kept_inductive : Inductive (switchSystem f) (orderly f) (Kept f) where
  initial s hs := by
    obtain ⟨hrip, hcontexts, hinside, hexecuted⟩ := hs
    refine ⟨fun c => ?_, fun c hc => absurd (hcontexts c).1 hc, ?_, ?_, ?_⟩
    · simp only [OriginKept, (hcontexts c).1]
    · simp only [InsideKept, hinside]
      exact hrip.2.2
    · rw [hexecuted]
      exact List.nodup_nil
    · rw [hexecuted]
      intro n hn
      exact absurd hn List.not_mem_nil
  step s e h he hg := by
    cases e with
    | user m => exact user_kept h he hg
    | getcontext a uctx ra => exact getcontext_kept h he
    | makecontext ucp start argc ap => exact makecontext_kept h he hg
    | setcontext a uctx =>
      obtain ⟨-, hsettled⟩ := h.settled he.2.2
      exact resume_kept a hsettled hg
    | swapcontext a oucp ucp ra => exact swapcontext_kept h he hg
    | library a =>
      by_cases hswap : s.machine.rip = swapReturn
      · have hinside := h.inside
        unfold InsideKept at hinside
        cases hs : s.inside with
        | none =>
          rw [hs] at hinside
          exact absurd hswap hinside
        | some call =>
          rw [hs] at hinside
          by_cases hran : call.number ∈ s.executed
          · exact (return_kept h hs hran (hg.2.2 call hs hran) a).1
          · exact (first_kept h hs (hinside.2.2.2 hran) hran hinside.1 a).1
      · by_cases hstart : s.machine.rip = ctxStart
        · exact start_kept h hstart hg
        · exact done_kept h (library_rip he.1 hswap hstart) he hg

theorem target_library {s : State} {a : Answers} {uctx : BitVec 64}
    (h : target f s (.library a) = some uctx) :
    (s.machine.rip = swapReturn ∧ FirstReturn f s.machine ∧
        uctx = (localsOf f s.machine).ucp) ∨
      s.machine.rip ≠ swapReturn ∧ s.machine.rip ≠ ctxStart ∧ uctx = successor s.machine := by
  simp only [target] at h
  split_ifs at h with hswap hfirst hstart
  · exact .inl ⟨hswap, hfirst, (Option.some.inj h).symm⟩
  · exact .inr ⟨hswap, hstart, (Option.some.inj h).symm⟩

theorem target_resume {s : State} {e : Event} (he : Enabled s e) {uctx : BitVec 64}
    (htarget : target f s e = some uctx) :
    ∃ a t, next f s e = resume a t uctx ∧ t.origin = s.origin ∧
      (t.machine.ctx uctx).state = (s.machine.ctx uctx).state ∧ s.executed ⊆ t.executed ∧
      (s.machine.rip = swapReturn → ∀ call, s.inside = some call → call.number ∈ t.executed) := by
  cases e with
  | user | getcontext | makecontext | swapcontext => cases htarget
  | setcontext a u =>
    obtain rfl : u = uctx := Option.some.inj htarget
    exact ⟨a, s, rfl, rfl, rfl, List.Subset.refl _, fun hrip => absurd hrip he.2.2⟩
  | library a =>
    rcases target_library htarget with ⟨hswap, hfirst, rfl⟩ | ⟨hswap, hstart, rfl⟩
    · let l := localsOf f s.machine
      let c := s.machine.ctx l.oucp
      let t : State := { s with
        machine := s.machine.setCtx l.oucp { c with onstack := c.onstack ||| UCF_SWAPPED }
        executed := s.executed ++ s.inside.toList.map Call.number }
      have hnext : next f s (.library a) = resume a t l.ucp := by
        simp only [next, if_pos hswap, if_pos hfirst, swapRest]
        rfl
      refine ⟨a, t, hnext, rfl, setCtx_field Ucontext.state _ rfl, List.subset_append_left _ _,
        fun _ call hinside => List.mem_append_right _ ?_⟩
      rw [hinside]
      exact List.mem_cons_self
    · have hreturn := library_rip he.1 hswap hstart
      exact ⟨a, afterDone s, done_next hreturn (he.2 hreturn), rfl,
        setCtx_field Ucontext.state (ctxStartTail s.machine) rfl, List.Subset.refl _,
        fun hrip => absurd hrip hswap⟩

theorem library_origin (s : State) (a : Answers) : (next f s (.library a)).origin = s.origin := by
  simp only [next]
  split_ifs <;> rfl

end

local instance : CodeAddresses := placed

/-- A frame of three pushed registers, with the arguments in `%rbx` and `%r14`. -/
def pushedFrame : Frame where
  words := 3
  enter sp l := (⟨l.oucp, sp - 8, l.saved.r12, l.saved.r13, l.ucp, l.saved.r15⟩,
    [l.saved.rbx, l.saved.r14, l.saved.rbp])
  recover entered := ⟨entered.1.rbx, entered.1.r14, ⟨entered.2.getD 0 0, entered.2.getD 2 0,
    entered.1.r12, entered.1.r13, entered.2.getD 1 0, entered.1.r15⟩⟩
  length_enter _ _ := rfl
  recover_enter _ _ := rfl
  words_small := by decide

def booted : State :=
  ⟨⟨fun _ => 0x7000, 0x8000, fun _ => 0, fun _ => ⟨0, 0, ⟨0, 0, 0⟩, 0, 0, 0, fun _ => 0⟩, 0⟩, 0,
    fun _ => .unset, fun _ => false, none, 0, []⟩

theorem booted_initial : (switchSystem pushedFrame).Initial booted :=
  ⟨by decide, fun _ => ⟨rfl, rfl⟩, rfl, rfl⟩

/-- A context saved at 0x8010, and a call at 0x8020 that switches to it. -/
def saved : State := next pushedFrame booted (.getcontext answers 0x5000 0x8010)
def switching : Event := .swapcontext answers 0x6000 0x5000 0x8020
def switched : State := next pushedFrame (next pushedFrame saved switching) (.library answers)

end ContextSwitch

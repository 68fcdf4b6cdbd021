import LibSystemCall.ContextSwitch

/-! # Contexts that must not be resumed

`z_makecontext` and `z_ctx_done` note in `uc_mcsize` that a context is not valid. Nothing reads
the note. -/
namespace ContextValid

open ContextMachine ContextStart ContextSwap ContextSwitch GuardedSystem

/-- An error is returned; the other registers and the signal mask are as before. -/
structure ErrorReturned (m m' : Machine) : Prop where
  error : m'.reg .rax ≠ 0
  registers : ∀ r, r ≠ .rax → m'.reg r = m.reg r
  mask : m'.mask = m.mask

structure Restarted (c : Ucontext) (m : Machine) : Prop where
  rip : m.rip = c.state .rip
  rsp : m.reg .rsp = c.state .rsp
  preserved : m.preserved = c.preserved
  rax : m.reg .rax = 0

theorem zSetcontext_restarted (a : Answers) (m : Machine) {uctx : BitVec 64} {c : Ucontext}
    (h : (m.ctx uctx).state = c.state) : Restarted c (zSetcontext a m uctx) := by
  obtain ⟨hresumed, -, -⟩ := zSetcontext_resumed a m uctx
  refine ⟨?_, ?_, ?_, hresumed.rax⟩
  · rw [hresumed.rip, h]
  · rw [hresumed.rsp, h]
  · rw [hresumed.preserved]
    simp only [Ucontext.preserved, h]

def Noted (s : State) : Prop :=
  ∀ uctx, s.invalid uctx = true → s.origin uctx = .unset ∨ (s.machine.ctx uctx).mcsize = 0

theorem zSetcontext_mcsize (a : Answers) (m : Machine) (uctx c : BitVec 64) :
    ((zSetcontext a m uctx).ctx c).mcsize = (m.ctx c).mcsize := by
  rw [(zSetcontext_resumed a m uctx).2.2]
  exact setCtx_field Ucontext.mcsize m (c := { m.ctx uctx with mcontext := mcontextOf uctx }) rfl

theorem swapRest_mcsize (f : Frame) (a : Answers) (m : Machine) (c : BitVec 64) :
    ((swapRest f a m).ctx c).mcsize = (m.ctx c).mcsize := by
  simp only [swapRest]
  split
  · rw [zSetcontext_mcsize]
    exact setCtx_field Ucontext.mcsize m rfl
  · rfl

theorem Noted.others {s s' : State} (h : Noted s) {uctx : BitVec 64}
    (hvalid : s'.invalid = Function.update s.invalid uctx false)
    (hctx : ∀ c, c ≠ uctx → s'.machine.ctx c = s.machine.ctx c)
    (horigin : ∀ c, c ≠ uctx → s'.origin c = s.origin c) : Noted s' := by
  intro c hinvalid
  rw [hvalid] at hinvalid
  by_cases hc : c = uctx
  · rw [hc, Function.update_self] at hinvalid
    cases hinvalid
  · rw [Function.update_of_ne hc] at hinvalid
    rw [hctx c hc, horigin c hc]
    exact h c hinvalid

theorem Noted.marked {s s' : State} (h : Noted s) {uctx : BitVec 64}
    (hinvalid : s'.invalid = Function.update s.invalid uctx true)
    (hmcsize : (s'.machine.ctx uctx).mcsize = 0)
    (hctx : ∀ c, c ≠ uctx → (s'.machine.ctx c).mcsize = (s.machine.ctx c).mcsize)
    (horigin : s'.origin = s.origin) : Noted s' := by
  intro c hc
  by_cases heq : c = uctx
  · exact .inr (heq ▸ hmcsize)
  · rw [hinvalid, Function.update_of_ne heq] at hc
    rw [hctx c heq, horigin]
    exact h c hc

theorem Noted.same {s s' : State} (h : Noted s) (hinvalid : s'.invalid = s.invalid)
    (hmcsize : ∀ c, s.origin c ≠ .unset →
      (s'.machine.ctx c).mcsize = (s.machine.ctx c).mcsize)
    (horigin : s'.origin = s.origin) : Noted s' := by
  intro c hc
  rw [hinvalid] at hc
  rw [horigin]
  by_cases hunset : s.origin c = .unset
  · exact .inl hunset
  · exact .inr ((hmcsize c hunset).trans ((h c hc).resolve_left hunset))

section

variable [CodeAddresses] (f : Frame)

def Attempts (s : State) (e : Event) : Prop :=
  ∃ uctx, target f s e = some uctx ∧ (next f s e).invalid uctx = true

def Honours (s : State) (e : Event) : Prop :=
  Attempts f s e → ErrorReturned s.machine (next f s e).machine

variable {f}

theorem target_restarted {s : State} {e : Event} (he : Enabled s e) {uctx : BitVec 64}
    (htarget : target f s e = some uctx) :
    Restarted (s.machine.ctx uctx) (next f s e).machine := by
  obtain ⟨a, t, hnext, -, hstate, -, -⟩ := target_resume he htarget
  rw [hnext]
  exact zSetcontext_restarted a t.machine hstate

theorem honours_iff {s : State} {e : Event} (he : Enabled s e) :
    Honours f s e ↔ ¬Attempts f s e := by
  refine ⟨fun hhonours hattempt => ?_, fun hnone hattempt => absurd hattempt hnone⟩
  have herror := (hhonours hattempt).error
  obtain ⟨uctx, htarget, -⟩ := hattempt
  exact herror (target_restarted he htarget).rax

theorem trace_honours_iff {s : State} {es : List Event}
    (h : ValidTrace (switchSystem f) anyStep s es) :
    ValidTrace (switchSystem f) (Honours f) s es ↔
      ValidTrace (switchSystem f) (fun t e => ¬Attempts f t e) s es := by
  induction es generalizing s with
  | nil => exact Iff.rfl
  | cons e es ih =>
    obtain ⟨⟨he, -⟩, hrest⟩ := h
    exact and_congr (and_congr_right fun _ => honours_iff he) (ih hrest)

/-- An invalid context is resumed like any other, so a run keeps to the rule exactly when it
never calls `z_setcontext` with one. -/
theorem invalid_resumed {s : State} {es : List Event}
    (h : ValidTrace (switchSystem f) anyStep s es) :
    (ValidTrace (switchSystem f) (Honours f) s es ↔
      ValidTrace (switchSystem f) (fun t e => ¬Attempts f t e) s es) ∧
    ∀ e, Enabled (runTrace (switchSystem f) s es) e →
      ∀ uctx, target f (runTrace (switchSystem f) s es) e = some uctx →
        Restarted ((runTrace (switchSystem f) s es).machine.ctx uctx)
          (next f (runTrace (switchSystem f) s es) e).machine :=
  ⟨trace_honours_iff h, fun _ he _ htarget => target_restarted he htarget⟩

theorem Noted.library {s : State} (h : Noted s) {a : Answers} (he : Enabled s (.library a)) :
    Noted (next f s (.library a)) := by
  by_cases hswap : s.machine.rip = swapReturn
  · refine h.same ?_ (fun c _ => ?_) (library_origin s a)
    · simp only [next, if_pos hswap]
      split <;> rfl
    · have hmachine : (next f s (.library a)).machine = swapRest f a s.machine := by
        simp only [next, if_pos hswap]
        split <;> rfl
      rw [hmachine]
      exact swapRest_mcsize f a s.machine c
  · by_cases hstart : s.machine.rip = ctxStart
    · simp only [next, if_neg hswap, if_pos hstart]
      exact h.same rfl (fun _ _ => rfl) rfl
    · have hreturn := library_rip he.1 hswap hstart
      rw [done_next hreturn (he.2 hreturn)]
      refine h.marked rfl ?_ (fun c hc => ?_) rfl
      · simp only [resume, afterDone, zSetcontext_mcsize, Machine.setCtx, Function.update_self]
      · simp only [resume, afterDone, zSetcontext_mcsize, Machine.setCtx,
          Function.update_of_ne hc]
        rfl

theorem Noted.makecontext {s : State} (h : Noted s) (hkept : Kept f s) {ucp start : BitVec 64}
    {argc : ℤ} {ap : ℕ → BitVec 64} (hg : orderly f s (.makecontext ucp start argc ap)) :
    Noted (next f s (.makecontext ucp start argc ap)) := by
  by_cases hucp : ucp = 0
  · simp only [next, if_pos hucp]
    refine h.same rfl (fun c _ => ?_) rfl
    simp only [zMakecontext, if_pos hucp]
  · by_cases hrefused : Refused (s.machine.ctx ucp) argc
    · simp only [next, if_neg hucp, if_pos hrefused, zMakecontext_refused start ap hucp hrefused]
      refine h.marked rfl ?_ (fun c hc => ?_) rfl
      · simp only [Machine.setCtx, Function.update_self]
      · simp only [Machine.setCtx, Function.update_of_ne hc]
    · have hown := hkept.own ucp (hg.resolve_left hucp)
      obtain ⟨-, -, -, hothers⟩ := zMakecontext_made start ap hucp hown hrefused
      simp only [next, if_neg hucp, if_neg hrefused]
      exact h.others rfl hothers fun c hc => Function.update_of_ne hc _ _

theorem noted_inductive :
    Inductive (switchSystem f) (orderly f) fun s => Kept f s ∧ Noted s where
  initial s hs := ⟨kept_inductive.initial s hs, fun c hc => .inl (hs.2.1 c).1⟩
  step s e h he hg := by
    obtain ⟨hkept, hnoted⟩ := h
    refine ⟨kept_inductive.step s e hkept he hg, ?_⟩
    cases e with
    | user m =>
      refine hnoted.same rfl (fun c hc => ?_) rfl
      have hchange : UserChange (s.machine.ctx c) (m.ctx c) := (hg c).resolve_left hc
      change (m.ctx c).mcsize = _
      rw [hchange]
    | getcontext a uctx ra =>
      have hothers := (zGetcontext_called a s.machine uctx ra).others
      exact hnoted.others rfl hothers fun c hc => Function.update_of_ne hc _ _
    | makecontext ucp start argc ap => exact hnoted.makecontext hkept hg
    | setcontext a uctx => exact hnoted.same rfl (fun c _ => zSetcontext_mcsize a _ uctx c) rfl
    | swapcontext a oucp ucp ra =>
      by_cases hnull : oucp = 0 ∨ ucp = 0
      · simp only [switchSystem, next, zSwapcontext, if_pos hnull]
        exact hnoted.same rfl (fun _ _ => rfl) rfl
      · have hra : (s.machine.push ra).word ((s.machine.push ra).reg .rsp) = ra :=
          Function.update_self _ _ _
        have hsp : (s.machine.push ra).reg .rsp = (newCall s oucp ucp ra).sp := rfl
        obtain ⟨-, -, -, -, -, hothers, -⟩ :=
          swapEntry_entered (f := f) a oucp ucp hsp hra rfl
        simp only [switchSystem, next, zSwapcontext, if_neg hnull]
        exact hnoted.others rfl hothers fun c hc => Function.update_of_ne hc _ _
    | library a => exact hnoted.library he

theorem invalid_noted {s : State} (h : ReachableUnder (switchSystem f) (orderly f) s)
    {uctx : BitVec 64} (hset : s.origin uctx ≠ .unset) (hinvalid : s.invalid uctx = true) :
    (s.machine.ctx uctx).mcsize = 0 :=
  ((noted_inductive.reachable h).2 uctx hinvalid).resolve_left hset

theorem attempt_dishonours {s : State} {e₁ e₂ : Event} {a : Answers} {uctx : BitVec 64}
    (h₁ : Enabled s e₁) (h₂ : Enabled (next f s e₁) e₂)
    (hrip : UserCode (next f (next f s e₁) e₂).machine.rip)
    (hinvalid : (next f (next f s e₁) e₂).invalid uctx = true) :
    ValidTrace (switchSystem f) anyStep s [e₁, e₂, .setcontext a uctx] ∧
      ¬ValidTrace (switchSystem f) (Honours f) s [e₁, e₂, .setcontext a uctx] := by
  refine ⟨⟨⟨h₁, trivial⟩, ⟨h₂, trivial⟩, ⟨hrip, trivial⟩, trivial⟩, fun h => ?_⟩
  obtain ⟨-, -, ⟨-, hhonours⟩, -⟩ := h
  exact (honours_iff (e := .setcontext a uctx) hrip).mp hhonours ⟨uctx, rfl, hinvalid⟩

end

local instance : CodeAddresses := placed

/-- A context that is saved and resumed, never made. -/
theorem invalid_resumed_saved :
    ValidTrace (switchSystem pushedFrame) (Honours pushedFrame) booted
      [.getcontext answers 0x5000 0x8010, .setcontext answers 0x5000] := by
  have hrip : UserCode saved.machine.rip := by decide +kernel
  have hvalid : ValidTrace (switchSystem pushedFrame) anyStep booted
      [.getcontext answers 0x5000 0x8010, .setcontext answers 0x5000] :=
    ⟨⟨⟨by decide, by decide, by decide⟩, trivial⟩, ⟨hrip, trivial⟩, trivial⟩
  refine (invalid_resumed hvalid).1.mpr ⟨⟨hvalid.1.1, ?_⟩, ⟨hrip, ?_⟩, trivial⟩
  · rintro ⟨uctx, htarget, -⟩
    cases htarget
  · rintro ⟨uctx, htarget, hinvalid⟩
    rw [← Option.some.inj htarget] at hinvalid
    exact absurd hinvalid (by decide +kernel)

/-- A context for which `z_makecontext` had -1 as the number of arguments. -/
theorem refused_context_resumed :
    let es := [.getcontext answers 0x5000 0x8010, .makecontext 0x5000 0x4000 (-1) fun _ => 0,
      .setcontext answers 0x5000]
    (switchSystem pushedFrame).Initial booted ∧
      ValidTrace (switchSystem pushedFrame) anyStep booted es ∧
      ¬ValidTrace (switchSystem pushedFrame) (Honours pushedFrame) booted es := by
  have hsaved : UserCode saved.machine.rip := by decide +kernel
  exact ⟨booted_initial, attempt_dishonours ⟨by decide, by decide, by decide⟩
    ⟨hsaved, by decide⟩ (by decide +kernel) (by decide +kernel)⟩

end ContextValid

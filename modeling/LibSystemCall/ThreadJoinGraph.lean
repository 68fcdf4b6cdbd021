import LibSystemCall.ThreadJoinGate

/-! # Threads that join each other

Any number of threads, each of them a target of `z_pthread_join` and a caller of it: the
steps on one target are those of `joinSystem`, taken on a view of the threads. The checks of
`z_pthread_join_internal` and the registration that follows them are one step; nobody detaches. -/
namespace ThreadJoin

open GuardedSystem

section Links

variable {ι : Type*} [DecidableEq ι]

structure WellLinked (joiner : ι → Option ι) : Prop where
  notSelf : ∀ t, joiner t ≠ some t
  notMutual : ∀ s t, joiner t = some s → joiner s ≠ some t

theorem WellLinked.register {joiner : ι → Option ι} (h : WellLinked joiner) {i t : ι}
    (hne : t ≠ i) (hback : joiner i ≠ some t) :
    WellLinked (Function.update joiner t (some i)) := by
  constructor
  · intro u
    by_cases hu : u = t
    · subst hu
      simpa using Ne.symm hne
    · simpa [hu] using h.notSelf u
  · intro s u hs
    by_cases hu : u = t
    · subst hu
      obtain rfl : i = s := by simpa using hs
      simpa [Ne.symm hne] using hback
    · rw [Function.update_of_ne hu] at hs
      by_cases hst : s = t
      · subst hst
        intro hi
        obtain rfl : i = u := by simpa using hi
        exact hback hs
      · simpa [hst] using h.notMutual s u hs

theorem WellLinked.clear {joiner : ι → Option ι} (h : WellLinked joiner) (t : ι) :
    WellLinked (Function.update joiner t none) := by
  have hsome : ∀ u s, Function.update joiner t none u = some s → joiner u = some s := by
    intro u s hs
    by_cases hu : u = t
    · subst hu
      simp at hs
    · simpa [hu] using hs
  constructor
  · intro u hu
    exact h.notSelf u (hsome u u hu)
  · intro s u hs hu
    exact h.notMutual s u (hsome u s hs) (hsome s u hu)

end Links

section Places

variable {ι : Type*}

def ClientPlace.Waits (p : ClientPlace ι) : Prop := p.InLoop ∨ p.Leaving

def ClientPlace.Joins (p : ClientPlace ι) : Prop :=
  p.Waits ∨ p = .readCleansUp ∨ p = .deallocate ∨ ∃ addr size, p = .unmap addr size

def ClientPlace.Settled (p : ClientPlace ι) : Prop := p = .idle ∨ ∃ res, p = .returned res

/-- A registered joiner is one whom the target, when it looks, finds joinable. -/
def JoinableAt (r : Record ι) : TargetPlace ι → Prop
  | .running | .split | .storeGate | .storeValue | .testCtx =>
    r.tlJoinCtx.isSome = true → r.tlJoinable = true
  | .prepost .loadCtx | .prepost (.testJoinable _) | .prepost (.unsetJoinable _) =>
    r.tlJoinable = true
  | .prepost (.setDetached _) | .prepost (.unlink _) => False
  | _ => True

theorem JoinableAt.of_joinable {r r' : Record ι} {p : TargetPlace ι} (h : JoinableAt r p)
    (hj : r'.tlJoinable = r.tlJoinable)
    (hc : r'.tlJoinCtx.isSome = true → r.tlJoinCtx.isSome = true) : JoinableAt r' p := by
  cases p with
  | prepost p => cases p <;> simp_all [JoinableAt]
  | _ => simp_all [JoinableAt]

theorem JoinableAt.register {r r' : Record ι} {p : TargetPlace ι} (h : JoinableAt r p)
    (hj : r'.tlJoinable = true) : JoinableAt r' p := by
  cases p with
  | prepost p =>
    cases p with
    | setDetached c | unlink c => exact h.elim
    | copyValue c => trivial
    | _ => exact hj
  | running | split | storeGate | storeValue | testCtx => exact fun _ => hj
  | _ => trivial

theorem not_waits_of_settled {p : ClientPlace ι} (h : p.Settled) : ¬ p.Waits := by
  rcases h with rfl | ⟨res, rfl⟩ <;>
    simp [ClientPlace.Waits, ClientPlace.InLoop, ClientPlace.Leaving]

theorem not_settled_of_joins {p : ClientPlace ι} (h : p.Joins) : ¬ p.Settled := by
  rintro (rfl | ⟨res, rfl⟩) <;>
    simp [ClientPlace.Joins, ClientPlace.Waits, ClientPlace.InLoop, ClientPlace.Leaving] at h

theorem not_idle_of_joins {p : ClientPlace ι} (h : p.Joins) : p ≠ .idle := by
  rintro rfl
  simp [ClientPlace.Joins, ClientPlace.Waits, ClientPlace.InLoop, ClientPlace.Leaving] at h

end Places

section OneTarget

variable {ι : Type*}

structure ViewInvariant (cfg : Config) (t : ι) (s : State ι) : Prop where
  gate : s.mem.record.tlExitGate = 0 ∨ s.mem.record.tlExitGate = cfg.kport
  joinable : JoinableAt s.mem.record s.target
  registered : ∀ i, s.mem.record.tlJoinCtx = some i ↔ (s.client i).Waits
  places : ∀ i, (s.client i).Settled ∨
    i ≠ t ∧ (s.client i).Joins ∧ (s.mem.ctx i).detached = false

/-- What steps on one target leave alone for the others. -/
structure Local (s s' : State ι) : Prop where
  idle : ∀ j, s'.client j = .idle ↔ s.client j = .idle
  ctx : s'.mem.ctx = s.mem.ctx
  joinCtx : s'.mem.record.tlJoinCtx = s.mem.record.tlJoinCtx ∨ s'.mem.record.tlJoinCtx = none
  target : s'.target = s.target ∨ s'.target ≠ .running

theorem waits_readGate : ClientPlace.Waits (.readGate : ClientPlace ι) := .inl (.inl rfl)

structure ExitStep (s s' : State ι) : Prop where
  client : s'.client = s.client
  ctx : s'.mem.ctx = s.mem.ctx
  joinCtx : s'.mem.record.tlJoinCtx = s.mem.record.tlJoinCtx
  gate : s'.mem.record.tlExitGate = 0 ∨ s'.mem.record.tlExitGate = s.mem.record.tlExitGate
  joinable : JoinableAt s'.mem.record s'.target
  target : s'.target ≠ .running

theorem ExitStep.local {s s' : State ι} (h : ExitStep s s') : Local s s' :=
  ⟨fun j => by rw [h.client], h.ctx, .inl h.joinCtx, .inr h.target⟩

theorem ViewInvariant.exit {cfg : Config} {t : ι} {s s' : State ι}
    (h : ViewInvariant cfg t s) (hs : ExitStep s s') : ViewInvariant cfg t s' := by
  constructor
  · rcases hs.gate with hg | hg
    · exact .inl hg
    · rw [hg]
      exact h.gate
  · exact hs.joinable
  · intro i
    rw [hs.joinCtx, hs.client]
    exact h.registered i
  · intro i
    rw [hs.client, hs.ctx]
    exact h.places i

theorem Local.trans {s s' s'' : State ι} (h : Local s s') (h' : Local s' s'') : Local s s'' where
  idle j := (h'.idle j).trans (h.idle j)
  ctx := h'.ctx.trans h.ctx
  joinCtx := by
    rcases h'.joinCtx with hc | hc
    · rw [hc]
      exact h.joinCtx
    · exact .inr hc
  target := by
    rcases h'.target with ht | ht
    · rw [ht]
      exact h.target
    · exact .inr ht

theorem joins_of_not_settled {cfg : Config} {t i : ι} {s : State ι} (h : ViewInvariant cfg t s)
    (hi : ¬ (s.client i).Settled) : (s.client i).Joins ∧ (s.mem.ctx i).detached = false :=
  ((h.places i).resolve_left hi).2

theorem ViewInvariant.congr {cfg : Config} {t : ι} {s s' : State ι} (h : ViewInvariant cfg t s)
    (hrec : s'.mem.record = s.mem.record) (ht : s'.target = s.target)
    (hcl : ∀ j, s'.client j = s.client j ∨ (s'.client j).Settled ∧ (s.client j).Settled)
    (hctx : ∀ j, ¬ (s.client j).Settled → s'.mem.ctx j = s.mem.ctx j) :
    ViewInvariant cfg t s' := by
  constructor
  · rw [hrec]
    exact h.gate
  · rw [hrec, ht]
    exact h.joinable
  · intro i
    rw [hrec, h.registered i]
    rcases hcl i with hc | ⟨hc, hc'⟩
    · rw [hc]
    · exact iff_of_false (not_waits_of_settled hc') (not_waits_of_settled hc)
  · intro i
    rcases hcl i with hc | ⟨hc, -⟩
    · rw [hc]
      by_cases hi : (s.client i).Settled
      · exact .inl hi
      · rw [hctx i hi]
        exact h.places i
    · exact .inl hc

end OneTarget

/-- What a thread is doing: its own code, a join of `t`, or `z_pthread_terminate`. -/
inductive Place (ι : Type*) where
  | running
  | joining (t : ι) (p : ClientPlace ι)
  | exiting (p : TargetPlace ι)
  deriving DecidableEq, Repr

structure World (ι : Type*) where
  record : ι → Record ι
  ctx : ι → JoinContext
  out : ι → Option (BitVec 64)
  released : List (ℕ × ℕ)
  locals : ι → Locals
  place : ι → Place ι
  result : ι → ℕ

variable {ι : Type*}

def Place.target : Place ι → TargetPlace ι
  | .exiting p => p
  | _ => .running

def Place.exitTo (old : Place ι) : TargetPlace ι → Place ι
  | .running => old
  | p => .exiting p

def Place.joinTo (old : Place ι) (t : ι) : ClientPlace ι → Place ι
  | .idle => old
  | .returned _ => .running
  | p => .joining t p

theorem joinTo_target (old : Place ι) (t : ι) (c : ClientPlace ι) :
    c ≠ .idle → (old.joinTo t c).target = .running := by
  intro hc
  cases c <;> first | exact absurd rfl hc | rfl

theorem joinTo_joining {old : Place ι} {t u : ι} {c p : ClientPlace ι}
    (h : old.joinTo t c = .joining u p) (hc : c ≠ .idle) : u = t ∧ p = c := by
  cases c <;> simp_all [Place.joinTo]

variable [DecidableEq ι]

def Place.client (t : ι) : Place ι → ClientPlace ι
  | .joining u p => if u = t then p else .idle
  | _ => .idle

def World.view (w : World ι) (t : ι) : State ι where
  mem := ⟨w.record t, w.ctx, w.out, w.released⟩
  target := (w.place t).target
  locals := w.locals t
  client i := (w.place i).client t
  detaching _ := false

def World.write (w : World ι) (t : ι) (s : State ι) : World ι where
  record := Function.update w.record t s.mem.record
  ctx := s.mem.ctx
  out := s.mem.out
  released := s.mem.released
  locals := Function.update w.locals t s.locals
  place j := if j = t then (w.place t).exitTo s.target else (w.place j).joinTo t (s.client j)
  result j :=
    match s.client j with
    | .returned res => res
    | _ => w.result j

/-- `z_pthread_join_internal` up to the wait, with the fresh context of `i` in place. `own` is the
caller's own `tl_join_ctx`, whose `waiter` is the thread it names. -/
def checkAndRegister (cfg : Config) (s : State ι) (i t : ι) (own : Option ι) : State ι :=
  let r := s.mem.record
  if !r.tlJoinable || r.tlJoinCtx.isSome then s.finish i EINVAL
  else if t = i ∨ own = some t then s.finish i EDEADLK
  else if r.tlExitGate = machPortDead then
    let m := s.mem.setJoinable false
    { s with mem := if (m.ctx i).valuePtr then m.storeOut cfg i else m }.go i .deallocate
  else { s with mem := (s.mem.setGate cfg.kport).setCtx (some i) }.go i .readGate

/-- The threads as `t` and its clients, the caller `i` with a fresh context. -/
def World.joinView (w : World ι) (i t : ι) (valuePtr : Bool) : State ι :=
  { w.view t with mem := (w.view t).mem.newCtx i valuePtr }

def World.join (cfg : ι → Config) (w : World ι) (i t : ι) (valuePtr : Bool) : World ι :=
  w.write t (checkAndRegister (cfg t) (w.joinView i t valuePtr) i t (w.record i).tlJoinCtx)

inductive ThreadEvent (ι : Type*) where
  | join (i t : ι) (valuePtr : Bool)
  | on (t : ι) (e : Event ι)
  deriving DecidableEq, Repr

def Event.AfterRegistration : Event ι → Prop
  | .targetRun | .targetWake _ | .run _ | .sleep _ | .waitReturns _ => True
  | _ => False

/-- A thread that waits in a join does not exit. -/
def ThreadEnabled (cfg : ι → Config) (w : World ι) : ThreadEvent ι → Prop
  | .join i _ _ => w.place i = .running
  | .on t e => e.AfterRegistration ∧ Enabled (cfg t) (w.view t) e ∧
      (e = .targetRun → ∀ u p, w.place t ≠ .joining u p)

def threadNext (cfg : ι → Config) (w : World ι) : ThreadEvent ι → World ι
  | .join i t valuePtr => w.join cfg i t valuePtr
  | .on t e => w.write t (next (cfg t) (w.view t) e)

structure ThreadsInitial (w : World ι) : Prop where
  place : ∀ i, w.place i = .running
  joinCtx : ∀ t, (w.record t).tlJoinCtx = none
  gate : ∀ t, (w.record t).tlExitGate = 0

def threadSystem (cfg : ι → Config) : System (World ι) (ThreadEvent ι) :=
  ⟨ThreadsInitial, ThreadEnabled cfg, threadNext cfg⟩

structure JoinerStep (s s' : State ι) (i : ι) (q : ClientPlace ι) : Prop where
  was : (s.client i).Joins
  client : s'.client = Function.update s.client i q
  place : q.Joins ∨ ∃ res, q = .returned res
  target : s'.target = s.target
  ctx : s'.mem.ctx = s.mem.ctx
  gate : s'.mem.record.tlExitGate = s.mem.record.tlExitGate
  joinable : s'.mem.record.tlJoinable = s.mem.record.tlJoinable
  joinCtx : s'.mem.record.tlJoinCtx = s.mem.record.tlJoinCtx ∧ (q.Waits ↔ (s.client i).Waits) ∨
    s'.mem.record.tlJoinCtx = none ∧ (s.client i).Waits ∧ ¬ q.Waits

theorem JoinerStep.local {s s' : State ι} {i : ι} {q : ClientPlace ι}
    (h : JoinerStep s s' i q) : Local s s' := by
  refine ⟨fun j => ?_, h.ctx, h.joinCtx.imp And.left And.left, .inl h.target⟩
  by_cases hj : j = i
  · subst hj
    have hq : q ≠ .idle := by
      rcases h.place with hq | ⟨res, rfl⟩
      · exact not_idle_of_joins hq
      · simp
    simp [h.client, hq, not_idle_of_joins h.was]
  · simp [h.client, hj]

theorem ViewInvariant.joiner {cfg : Config} {t : ι} {s s' : State ι} {i : ι} {q : ClientPlace ι}
    (h : ViewInvariant cfg t s) (hs : JoinerStep s s' i q) : ViewInvariant cfg t s' := by
  have hself : s'.client i = q := eq_of_moved hs.client
  have hother : ∀ j, j ≠ i → s'.client j = s.client j := fun j => other_of_moved hs.client
  constructor
  · rw [hs.gate]
    exact h.gate
  · rw [hs.target]
    refine h.joinable.of_joinable hs.joinable ?_
    rcases hs.joinCtx with ⟨hc, -⟩ | ⟨hc, -⟩ <;> simp [hc]
  · intro j
    by_cases hj : j = i
    · subst hj
      rw [hself]
      rcases hs.joinCtx with ⟨hc, hq⟩ | ⟨hc, -, hq⟩
      · rw [hc, hq]
        exact h.registered j
      · simp [hc, hq]
    · rw [hother j hj]
      rcases hs.joinCtx with ⟨hc, -⟩ | ⟨hc, hw, -⟩
      · rw [hc]
        exact h.registered j
      · -- the joiner that leaves was the registered one
        have hi := (h.registered i).mpr hw
        rw [hc, ← h.registered j, hi]
        simpa using Ne.symm hj
  · intro j
    rw [hs.ctx]
    by_cases hj : j = i
    · subst hj
      rw [hself]
      rcases hs.place with hq | hq
      · rcases h.places j with hset | ⟨hne, -, hd⟩
        · have hw := hs.was
          rcases hset with h0 | ⟨res, h0⟩ <;> rw [h0] at hw <;>
            simp [ClientPlace.Joins, ClientPlace.Waits, ClientPlace.InLoop,
              ClientPlace.Leaving] at hw
        · exact .inr ⟨hne, hq, hd⟩
      · exact .inl (.inr hq)
    · rw [hother j hj]
      exact h.places j

theorem joiner_waits {s : State ι} {i : ι} {q : ClientPlace ι} (hw : (s.client i).Waits)
    (hq : q.Waits) : JoinerStep s (s.go i q) i q where
  was := .inl hw
  client := rfl
  place := .inl (.inl hq)
  target := rfl
  ctx := rfl
  gate := rfl
  joinable := rfl
  joinCtx := .inl ⟨rfl, iff_of_true hq hw⟩

theorem joiner_ends {s : State ι} {m : Shared ι} {i : ι} {q : ClientPlace ι}
    (hp : (s.client i).Joins) (hw : ¬ (s.client i).Waits)
    (hq : (q.Joins ∧ ¬ q.Waits) ∨ ∃ res, q = .returned res)
    (hm : m.record = s.mem.record ∧ m.ctx = s.mem.ctx) :
    JoinerStep s ({ s with mem := m }.go i q) i q := by
  have hnw : ¬ q.Waits := hq.elim And.right fun hr => not_waits_of_settled (.inr hr)
  constructor
  · exact hp
  · rfl
  · exact hq.imp And.left id
  · rfl
  · exact hm.2
  · exact congrArg Record.tlExitGate hm.1
  · exact congrArg Record.tlJoinable hm.1
  · exact .inl ⟨congrArg Record.tlJoinCtx hm.1, iff_of_false hnw hw⟩

theorem run_joiner (cfg : Config) {s : State ι} {i : ι} (hp : (s.client i).Joins)
    (hd : (s.mem.ctx i).detached = false) (hr : (s.client i).runs = true) :
    ∃ q, JoinerStep s (clientStep cfg s i) i q := by
  have hnw : ∀ p : ClientPlace ι, p = .readCleansUp ∨ p = .deallocate ∨
      (∃ addr size, p = .unmap addr size) → ¬ p.Waits := by
    rintro p (rfl | rfl | ⟨addr, size, rfl⟩) <;>
      simp [ClientPlace.Waits, ClientPlace.InLoop, ClientPlace.Leaving]
  have hjoins := hp
  rcases hp with ((hp | hp | hp) | (hp | hp)) | hp | hp | ⟨addr, size, hp⟩
  case inl.inl.inl =>
    simp only [clientStep, hp]
    refine ⟨_, joiner_waits (hp ▸ waits_readGate) ?_⟩
    split_ifs
    · exact .inr (.inl rfl)
    · exact .inr (.inl rfl)
    · exact .inl (.inr (.inl rfl))
  case inl.inl.inr.inl | inl.inl.inr.inr =>
    rw [hp] at hr
    cases hr
  case inl.inr.inl =>
    simp only [clientStep, hp, hd, Bool.false_eq_true, if_false]
    exact ⟨_, joiner_waits (hp ▸ .inr (.inl rfl)) (.inr (.inr rfl))⟩
  case inl.inr.inr =>
    simp only [clientStep, hp]
    exact ⟨.readCleansUp, hjoins, rfl, .inl (.inr (.inl rfl)), rfl, rfl, rfl, rfl,
      .inr ⟨rfl, hp ▸ .inr (.inr rfl), hnw _ (.inl rfl)⟩⟩
  case inr.inl =>
    have hw := hnw (s.client i) (.inl hp)
    simp only [clientStep, hp]
    split_ifs
    · exact ⟨_, joiner_ends (m := s.mem) hjoins hw
        (.inl ⟨.inr (.inr (.inl rfl)), hnw _ (.inr (.inl rfl))⟩) ⟨rfl, rfl⟩⟩
    · exact ⟨_, joiner_ends (m := s.mem) hjoins hw (.inr ⟨_, rfl⟩) ⟨rfl, rfl⟩⟩
  case inr.inr.inl =>
    have hw := hnw (s.client i) (.inr (.inl hp))
    simp only [clientStep, hp]
    split_ifs
    · exact ⟨_, joiner_ends (m := s.mem) hjoins hw (.inr ⟨_, rfl⟩) ⟨rfl, rfl⟩⟩
    · exact ⟨_, joiner_ends (m := s.mem) hjoins hw
        (.inl ⟨.inr (.inr (.inr ⟨_, _, rfl⟩)), hnw _ (.inr (.inr ⟨_, _, rfl⟩))⟩) ⟨rfl, rfl⟩⟩
  case inr.inr.inr =>
    have hw := hnw (s.client i) (.inr (.inr ⟨_, _, hp⟩))
    simp only [clientStep, hp]
    exact ⟨_, joiner_ends hjoins hw (.inr ⟨_, rfl⟩) ⟨rfl, rfl⟩⟩

theorem wake_joiner {s : State ι} {j : ι} (hj : s.client j = .asleep) :
    JoinerStep s (s.wake (some j)) j .readGate :=
  joiner_waits (hj ▸ .inl (.inr (.inr rfl))) waits_readGate

theorem target_exit (cfg : Config) {s : State ι} (h : JoinableAt s.mem.record s.target)
    (hr : s.target.runs = true) : ExitStep s (targetStep cfg s) := by
  have hafter : ∀ l, JoinableAt s.mem.record (afterList l : TargetPlace ι) ∧
      (afterList l : TargetPlace ι) ≠ .running := by
    intro l
    unfold afterList
    split_ifs <;> exact ⟨trivial, by simp⟩
  unfold targetStep
  cases hp : s.target <;> rw [hp] at h hr <;> dsimp only
  case wake | done | fault => cases hr
  case running => exact ⟨rfl, rfl, rfl, .inr rfl, h, by simp⟩
  case split =>
    obtain ⟨hg, hc, hj, -⟩ := enterTerminate_fields cfg s.mem.record
    refine ⟨rfl, rfl, hc, .inr hg, fun hs => ?_, by simp⟩
    rw [hc] at hs
    exact hj.trans (h hs)
  case storeGate => exact ⟨rfl, rfl, rfl, .inl rfl, h, by simp⟩
  case storeValue => exact ⟨rfl, rfl, rfl, .inr rfl, h, by simp⟩
  case testCtx =>
    refine ⟨rfl, rfl, rfl, .inr rfl, ?_, ?_⟩
    · split_ifs with hc
      · exact h hc
      · trivial
    · split_ifs <;> simp
  case prepost p =>
    cases p with
    | loadCtx =>
      simp only [prepostStep]
      cases s.mem.record.tlJoinCtx with
      | none => exact ⟨rfl, rfl, rfl, .inr rfl, trivial, by simp⟩
      | some c => exact ⟨rfl, rfl, rfl, .inr rfl, h, by simp⟩
    | testJoinable c =>
      have hj : s.mem.record.tlJoinable = true := h
      simp only [prepostStep, hj, if_true]
      exact ⟨rfl, rfl, rfl, .inr rfl, h, by simp⟩
    | unsetJoinable c => exact ⟨rfl, rfl, rfl, .inr rfl, trivial, by simp [prepostStep]⟩
    | setDetached c | unlink c => exact h.elim
    | copyValue c =>
      simp only [prepostStep]
      split_ifs <;> exact ⟨rfl, rfl, rfl, .inr rfl, trivial, by simp⟩
  case testJoinable =>
    refine ⟨rfl, rfl, rfl, .inr rfl, ?_, ?_⟩
    · split_ifs
      · trivial
      · exact (hafter _).1
    · split_ifs
      · simp
      · exact (hafter _).2
  case setKeep =>
    refine ⟨rfl, rfl, rfl, .inr rfl, ?_, (hafter _).2⟩
    exact (hafter s.locals).1.of_joinable rfl id
  case retestCtx =>
    refine ⟨rfl, rfl, rfl, .inr rfl, ?_, ?_⟩
    · split_ifs <;> trivial
    · split_ifs <;> simp
  case setKeepAfterWake => exact ⟨rfl, rfl, rfl, .inr rfl, trivial, by simp⟩
  case terminate => exact ⟨rfl, rfl, rfl, .inr rfl, trivial, by simp⟩

theorem after_registration_step {cfg : Config} {t : ι} {s : State ι} {e : Event ι}
    (h : ViewInvariant cfg t s) (hafter : e.AfterRegistration) (he : Enabled cfg s e) :
    ViewInvariant cfg t (next cfg s e) ∧ Local s (next cfg s e) := by
  cases e with
  | startJoin | startDetach | deadlock | wake => exact hafter.elim
  | targetRun =>
    have hs := target_exit cfg h.joinable he
    exact ⟨h.exit hs, hs.local⟩
  | targetWake woken =>
    obtain ⟨ht, hw⟩ := he
    have hret : ∀ s : State ι, ExitStep s { s with target := .retestCtx } := fun s =>
      ⟨rfl, rfl, rfl, .inr rfl, trivial, by simp⟩
    cases woken with
    | none => exact ⟨h.exit (hret s), (hret s).local⟩
    | some j =>
      have hj := wake_joiner hw
      exact ⟨(h.joiner hj).exit (hret _), hj.local.trans (hret _).local⟩
  | run i =>
    have hi : ¬ (s.client i).Settled := by
      rintro (hi | ⟨res, hi⟩) <;> simp [Enabled, hi, ClientPlace.runs] at he
    obtain ⟨hp, hd⟩ := joins_of_not_settled h hi
    obtain ⟨q, hs⟩ := run_joiner cfg hp hd he
    exact ⟨h.joiner hs, hs.local⟩
  | sleep i =>
    have hw : (s.client i).Waits := .inl (.inr (.inl he.1))
    have hs := joiner_waits hw (q := .asleep) (.inl (.inr (.inr rfl)))
    exact ⟨h.joiner hs, hs.local⟩
  | waitReturns i =>
    have hw : (s.client i).Waits := .inl (.inr he)
    have hs := joiner_waits hw waits_readGate
    exact ⟨h.joiner hs, hs.local⟩

theorem targetStays {cfg : Config} {s : State ι} {e : Event ι} (he : Enabled cfg s e)
    (hne : e ≠ .targetRun) (hr : s.target = .running) : (next cfg s e).target = .running := by
  cases e with
  | targetRun => exact absurd rfl hne
  | targetWake woken =>
    rw [he.1] at hr
    cases hr
  | run i => exact (clientStep_target cfg s i).1.trans hr
  | wake i woken => cases woken <;> exact hr
  | _ => exact hr

def Event.By (i : ι) : State ι → Event ι → Prop := fun _ e => e = .run i ∨ e = .deadlock i

abbrev Alone (cfg : Config) (i : ι) : State ι → State ι → Prop :=
  Execution (joinSystem cfg) (Event.By i)

theorem go_go (s : State ι) (i : ι) (p q : ClientPlace ι) : (s.go i p).go i q = s.go i q := by
  simp [State.go]

theorem Alone.run {cfg : Config} {i : ι} {s₀ s s' : State ι} {p : ClientPlace ι}
    (h : Alone cfg i s₀ (s.go i p)) (hp : p.runs = true)
    (hs : clientStep cfg (s.go i p) i = s') : Alone cfg i s₀ s' := by
  have hen : (joinSystem cfg).Enabled (s.go i p) (.run i) := by
    show ((s.go i p).client i).runs = true
    rw [State.go_self]
    exact hp
  rw [← hs]
  exact h.tail hen (.inl rfl)

theorem startJoin_joinView (cfg : Config) (w : World ι) (i t : ι) (valuePtr : Bool) :
    next cfg (w.view t) (.startJoin i valuePtr) =
      (w.joinView i t valuePtr).go i .joinTestJoinable := by
  have hdet : Function.update (w.view t).detaching i false = (w.view t).detaching :=
    Function.update_eq_self i _
  simp only [next, hdet, World.joinView]

/-- `checkAndRegister` is what the caller's steps in `joinSystem` do from the first check to the
end of the registration. -/
theorem checkAndRegister_alone (cfg : Config) {s : State ι} {i : ι} (hd : s.detaching i = false)
    (t : ι) (own : Option ι) :
    Alone cfg i (s.go i .joinTestJoinable) (checkAndRegister cfg s i t own) := by
  have h0 : Alone cfg i (s.go i .joinTestJoinable) (s.go i .joinTestJoinable) := .refl _
  unfold checkAndRegister
  dsimp only
  by_cases hj : s.mem.record.tlJoinable = true
  · have h1 : Alone cfg i (s.go i .joinTestJoinable) (s.go i .joinTestCtx) :=
      h0.run rfl (by simp [clientStep, hj, go_go])
    by_cases hc : s.mem.record.tlJoinCtx.isSome = true
    · rw [if_pos (by simp [hc])]
      exact h1.run rfl (by simp [clientStep, hc, go_go, State.finish, hd])
    · have h2 : Alone cfg i (s.go i .joinTestJoinable) (s.go i .joinTestSelf) :=
        h1.run rfl (by simp [clientStep, hc, go_go])
      rw [if_neg (by simp [hj, hc])]
      by_cases hdl : t = i ∨ own = some t
      · have hen : (joinSystem cfg).Enabled (s.go i .joinTestSelf) (.deadlock i) :=
          State.go_self _ _ _
        have hfin : (s.go i .joinTestSelf).finish i EDEADLK = s.finish i EDEADLK := go_go _ _ _ _
        rw [if_pos hdl, ← hfin]
        exact h2.tail hen (.inr rfl)
      · have h3 : Alone cfg i (s.go i .joinTestJoinable) (s.go i .joinTestGate) :=
          h2.run rfl (by simp [clientStep, go_go])
        rw [if_neg hdl]
        by_cases hg : s.mem.record.tlExitGate = machPortDead
        · have h4 : Alone cfg i (s.go i .joinTestJoinable) (s.go i .joinUnsetJoinable) :=
            h3.run rfl (by simp [clientStep, hg, go_go])
          have h5 : Alone cfg i (s.go i .joinTestJoinable)
              ({ s with mem := s.mem.setJoinable false }.go i .joinCopyValue) :=
            h4.run rfl (by simp [clientStep, State.go])
          rw [if_pos hg]
          refine h5.run rfl ?_
          cases hv : ((s.mem.setJoinable false).ctx i).valuePtr <;> simp [clientStep, State.go, hv]
        · have h4 : Alone cfg i (s.go i .joinTestJoinable) (s.go i .storeGate) :=
            h3.run rfl (by simp [clientStep, hg, go_go])
          have h5 : Alone cfg i (s.go i .joinTestJoinable)
              ({ s with mem := s.mem.setGate cfg.kport }.go i .storeCtx) :=
            h4.run rfl (by simp [clientStep, State.go])
          rw [if_neg hg]
          exact h5.run rfl (by simp [clientStep, State.go])
  · rw [if_pos (by simp [hj])]
    exact h0.run rfl (by simp [clientStep, hj, go_go, State.finish, hd])

/-- The one step of a join is the caller's steps from the start of its join, with nobody else in
between. -/
theorem join_alone (cfg : ι → Config) (w : World ι) (i t : ι) (valuePtr : Bool) :
    ∃ s, Alone (cfg t) i (next (cfg t) (w.view t) (.startJoin i valuePtr)) s ∧
      w.join cfg i t valuePtr = w.write t s := by
  refine ⟨_, ?_, rfl⟩
  rw [startJoin_joinView]
  exact checkAndRegister_alone (cfg t) rfl t _

structure Writes (w : World ι) (t : ι) (s : State ι) : Prop where
  idle : ∀ j p, w.place j = .joining t p → s.client j ≠ .idle
  busy : ∀ j, s.client j ≠ .idle → w.place j = .running ∨ ∃ p, w.place j = .joining t p
  running : s.target = .running → (w.place t).target = .running
  staying : s.target ≠ .running → ∀ u p, w.place t ≠ .joining u p
  notSelf : ∀ p, w.place t ≠ .joining t p
  ctx : ∀ j u p, u ≠ t → w.place j = .joining u p → s.mem.ctx j = w.ctx j

theorem joinTo_client (old : Place ι) (t : ι) (c : ClientPlace ι) :
    c ≠ .idle → (old.joinTo t c).client t = c ∨ c.Settled ∧ (old.joinTo t c).client t = .idle := by
  intro hc
  cases c with
  | idle => exact absurd rfl hc
  | returned res => exact .inr ⟨.inr ⟨res, rfl⟩, rfl⟩
  | _ => exact .inl (by simp [Place.joinTo, Place.client])

theorem joinTo_client_ne (old : Place ι) {t u : ι} (hu : u ≠ t) (c : ClientPlace ι) :
    c ≠ .idle → (old.joinTo t c).client u = .idle := by
  intro hc
  cases c <;> first | exact absurd rfl hc | simp [Place.joinTo, Place.client, Ne.symm hu]

theorem Writes.place_self {w : World ι} {t : ι} {s : State ι} :
    (w.write t s).place t = (w.place t).exitTo s.target := by simp [World.write]

theorem Writes.place_other {w : World ι} {t j : ι} {s : State ι} (hj : j ≠ t) :
    (w.write t s).place j = (w.place j).joinTo t (s.client j) := by simp [World.write, hj]

theorem Writes.busy_client {w : World ι} {t j u : ι} {s : State ι} (h : Writes w t s)
    (hj : s.client j ≠ .idle) (hu : u ≠ t) : (w.place j).client u = .idle := by
  rcases h.busy j hj with hp | ⟨p, hp⟩
  · simp [hp, Place.client]
  · simp [hp, Place.client, Ne.symm hu]

theorem Writes.exitTo_client {w : World ι} {t u : ι} {s : State ι} (h : Writes w t s) :
    ((w.place t).exitTo s.target).client u = (w.place t).client u := by
  by_cases hr : s.target = .running
  · rw [hr]
    rfl
  · have hidle : (w.place t).client u = .idle := by
      cases hp : w.place t with
      | joining v p => exact absurd hp (h.staying hr v p)
      | _ => rfl
    rw [hidle]
    cases hs : s.target <;> first | exact absurd hs hr | rfl

theorem Writes.view_self {cfg : Config} {w : World ι} {t : ι} {s : State ι} (h : Writes w t s)
    (hv : ViewInvariant cfg t s) : ViewInvariant cfg t ((w.write t s).view t) := by
  refine hv.congr ?_ ?_ (fun j => ?_) fun j _ => rfl
  · simp [World.view, World.write]
  · show ((w.write t s).place t).target = s.target
    rw [Writes.place_self]
    by_cases hr : s.target = .running
    · rw [hr]
      exact h.running hr
    · cases hs : s.target <;> first | exact absurd hs hr | rfl
  · show ((w.write t s).place j).client t = s.client j ∨ _
    by_cases hj : j = t
    · subst hj
      have hidle : (w.place j).client j = .idle := by
        cases hp : w.place j with
        | joining v p =>
          by_cases hv : v = j
          · exact absurd hp (hv ▸ h.notSelf p)
          · simp [Place.client, hv]
        | _ => rfl
      refine .inr ⟨.inl ?_, (hv.places j).resolve_right fun hn => hn.1 rfl⟩
      show ((w.write j s).place j).client j = .idle
      rw [Writes.place_self, h.exitTo_client, hidle]
    · rw [Writes.place_other hj]
      by_cases hc : s.client j = .idle
      · left
        rw [hc]
        cases hp : w.place j with
        | joining v p =>
          by_cases hv : v = t
          · exact absurd hc (h.idle j p (hv ▸ hp))
          · simp [Place.joinTo, Place.client, hv]
        | _ => rfl
      · refine (joinTo_client (w.place j) t (s.client j) hc).imp_right ?_
        rintro ⟨hset, hidle⟩
        refine ⟨.inl ?_, hset⟩
        show ((w.write t s).place j).client t = .idle
        rw [Writes.place_other hj, hidle]

theorem Writes.view_other {cfg : Config} {w : World ι} {t u : ι} {s : State ι}
    (h : Writes w t s) (hu : u ≠ t) (hv : ViewInvariant cfg u (w.view u)) :
    ViewInvariant cfg u ((w.write t s).view u) := by
  refine hv.congr ?_ ?_ (fun j => .inl ?_) fun j hj => ?_
  · simp [World.view, World.write, hu]
  · show ((w.write t s).place u).target = (w.place u).target
    rw [Writes.place_other hu]
    by_cases hc : s.client u = .idle
    · rw [hc]
      rfl
    · rw [joinTo_target _ _ _ hc]
      rcases h.busy u hc with hp | ⟨p, hp⟩ <;> rw [hp] <;> rfl
  · show ((w.write t s).place j).client u = (w.place j).client u
    by_cases hj : j = t
    · subst hj
      rw [Writes.place_self, h.exitTo_client]
    · rw [Writes.place_other hj]
      by_cases hc : s.client j = .idle
      · rw [hc]
        rfl
      · rw [joinTo_client_ne _ hu _ hc, h.busy_client hc hu]
  · cases hp : w.place j with
    | joining v p =>
      by_cases hv : v = u
      · exact h.ctx j v p (hv ▸ hu) hp
      · exact absurd (.inl (by simp [World.view, hp, Place.client, hv])) hj
    | _ => exact absurd (.inl (by simp [World.view, hp, Place.client])) hj

structure WorldInvariant (cfg : ι → Config) (w : World ι) : Prop where
  views : ∀ t, ViewInvariant (cfg t) t (w.view t)
  linked : WellLinked fun t => (w.record t).tlJoinCtx
  joins : ∀ j t p, w.place j = .joining t p → p.Joins

theorem write_joiner (w : World ι) (t : ι) (s : State ι) :
    (fun u => ((w.write t s).record u).tlJoinCtx) =
      Function.update (fun u => (w.record u).tlJoinCtx) t s.mem.record.tlJoinCtx := by
  funext u
  by_cases hu : u = t
  · subst hu
    simp [World.write]
  · simp [World.write, hu]

theorem WorldInvariant.write {cfg : ι → Config} {w : World ι} {t : ι} {s : State ι}
    (h : WorldInvariant cfg w) (hw : Writes w t s) (hv : ViewInvariant (cfg t) t s)
    (hl : WellLinked (Function.update (fun u => (w.record u).tlJoinCtx) t
      s.mem.record.tlJoinCtx)) : WorldInvariant cfg (w.write t s) := by
  constructor
  · intro u
    by_cases hu : u = t
    · subst hu
      exact hw.view_self hv
    · exact hw.view_other hu (h.views u)
  · rw [write_joiner]
    exact hl
  · intro j u p hp
    by_cases hj : j = t
    · subst hj
      rw [Writes.place_self] at hp
      by_cases hr : s.target = .running
      · rw [hr] at hp
        exact h.joins j u p hp
      · cases hs : s.target <;> rw [hs] at hp <;> first | exact absurd hs hr | cases hp
    · rw [Writes.place_other hj] at hp
      rcases hv.places j with hset | ⟨-, hjoins, -⟩
      · rcases hset with hc | ⟨res, hc⟩ <;> rw [hc] at hp
        · exact h.joins j u p hp
        · cases hp
      · rcases joinTo_joining hp (not_idle_of_joins hjoins) with ⟨rfl, rfl⟩
        exact hjoins

theorem view_client {w : World ι} {j t : ι} {p : ClientPlace ι} (h : w.place j = .joining t p) :
    (w.view t).client j = p := by simp [World.view, h, Place.client]

theorem view_client_not_idle {w : World ι} {j t : ι} (h : (w.view t).client j ≠ .idle) :
    ∃ p, w.place j = .joining t p := by
  cases hp : w.place j with
  | joining u p =>
    by_cases hu : u = t
    · exact ⟨p, by rw [hu]⟩
    · exact absurd (by simp [World.view, hp, Place.client, hu]) h
  | _ => exact absurd (by simp [World.view, hp, Place.client]) h

theorem WorldInvariant.not_self {cfg : ι → Config} {w : World ι} (h : WorldInvariant cfg w)
    (t : ι) (p : ClientPlace ι) : w.place t ≠ .joining t p := by
  intro hp
  have hj := h.joins t t p hp
  rw [← view_client hp] at hj
  rcases (h.views t).places t with hset | ⟨hne, -⟩
  · exact not_settled_of_joins hj hset
  · exact hne rfl

theorem Writes.of_local {cfg : ι → Config} {w : World ι} (h : WorldInvariant cfg w) {t : ι}
    {s : State ι} (hs : Local (w.view t) s)
    (ht : s.target ≠ .running → ∀ u p, w.place t ≠ .joining u p) : Writes w t s := by
  constructor
  · intro j p hj hc
    have hi := (hs.idle j).mp hc
    rw [view_client hj] at hi
    exact not_idle_of_joins (h.joins j t p hj) hi
  · intro j hc
    exact .inr (view_client_not_idle fun hi => hc ((hs.idle j).mpr hi))
  · intro hr
    exact (hs.target.resolve_right (not_not_intro hr)).symm.trans hr
  · exact ht
  · exact h.not_self t
  · intro j u p _ _
    rw [hs.ctx]
    rfl

theorem WorldInvariant.on {cfg : ι → Config} {w : World ι} {t : ι} {e : Event ι}
    (h : WorldInvariant cfg w) (he : ThreadEnabled cfg w (.on t e)) :
    WorldInvariant cfg (threadNext cfg w (.on t e)) := by
  obtain ⟨hafter, hen, hexit⟩ := he
  obtain ⟨hv, hl⟩ := after_registration_step (h.views t) hafter hen
  refine h.write (.of_local h hl fun hr => ?_) hv ?_
  · by_cases het : e = .targetRun
    · exact hexit het
    · intro u p hp
      have hrun : (w.view t).target = .running := by simp [World.view, hp, Place.target]
      rw [targetStays hen het hrun] at hr
      exact hr rfl
  · rcases hl.joinCtx with hc | hc
    · have hsame : (next (cfg t) (w.view t) e).mem.record.tlJoinCtx = (w.record t).tlJoinCtx := hc
      rw [hsame, Function.update_eq_self t fun u => (w.record u).tlJoinCtx]
      exact h.linked
    · rw [hc]
      exact h.linked.clear t

theorem Writes.of_join {cfg : ι → Config} {w : World ι} (h : WorldInvariant cfg w) {i t : ι}
    {s : State ι} {q : ClientPlace ι} (hi : w.place i = .running)
    (hc : s.client = Function.update (w.view t).client i q)
    (ht : s.target = (w.view t).target) (hctx : ∀ j, j ≠ i → s.mem.ctx j = w.ctx j) :
    Writes w t s := by
  have hne : ∀ j u p, w.place j = .joining u p → j ≠ i := by
    rintro j u p hj rfl
    rw [hi] at hj
    cases hj
  constructor
  · intro j p hj
    rw [other_of_moved hc (hne j t p hj), view_client hj]
    exact not_idle_of_joins (h.joins j t p hj)
  · intro j hj
    by_cases hji : j = i
    · exact .inl (hji ▸ hi)
    · rw [other_of_moved hc hji] at hj
      exact .inr (view_client_not_idle hj)
  · exact ht.symm.trans
  · intro hr u p hp
    rw [ht] at hr
    simp [World.view, hp, Place.target] at hr
  · exact h.not_self t
  · intro j u p _ hj
    exact hctx j (hne j u p hj)

theorem WorldInvariant.refused {cfg : ι → Config} {w : World ι} (h : WorldInvariant cfg w)
    {i t : ι} (hi : w.place i = .running) (valuePtr : Bool) (res : ℕ) :
    WorldInvariant cfg (w.write t
      ((w.joinView i t valuePtr).finish i res)) := by
  have hidle : (w.view t).client i = .idle := by simp [World.view, hi, Place.client]
  have hctx : ∀ j, j ≠ i → ((w.view t).mem.newCtx i valuePtr).ctx j = w.ctx j :=
    fun j hj => Function.update_of_ne hj _ _
  refine h.write (.of_join h hi (q := .returned res) ?_ rfl hctx) ?_ ?_
  · rfl
  · refine (h.views t).congr rfl rfl (fun j => ?_) fun j hj => hctx j ?_
    · by_cases hj : j = i
      · subst hj
        exact .inr ⟨.inr ⟨_, State.finish_self _ _ _⟩, .inl hidle⟩
      · exact .inl (Function.update_of_ne hj _ _)
    · rintro rfl
      exact hj (.inl hidle)
  · exact (Function.update_eq_self t fun u => (w.record u).tlJoinCtx).symm ▸ h.linked

theorem WorldInvariant.registered {cfg : ι → Config} {w : World ι} (h : WorldInvariant cfg w)
    {i t : ι} (hi : w.place i = .running) (valuePtr : Bool)
    (hj : (w.record t).tlJoinable = true) (hn : (w.record t).tlJoinCtx = none) (hti : t ≠ i)
    (hback : (w.record i).tlJoinCtx ≠ some t) :
    WorldInvariant cfg (w.write t ({ w.joinView i t valuePtr with
      mem := ((w.joinView i t valuePtr).mem.setGate (cfg t).kport).setCtx (some i) }.go i
        .readGate)) := by
  have hv := h.views t
  have hctx : ∀ j, j ≠ i → ((w.view t).mem.newCtx i valuePtr).ctx j = w.ctx j :=
    fun j hj => Function.update_of_ne hj _ _
  refine h.write (.of_join h hi (q := .readGate) rfl rfl hctx) ?_
    (h.linked.register hti hback)
  constructor
  · exact .inr rfl
  · exact hv.joinable.register hj
  · intro j
    by_cases hji : j = i
    · subst hji
      refine iff_of_true rfl ?_
      rw [State.go_self]
      exact waits_readGate
    · have hw : ¬ ((w.view t).client j).Waits := by
        rw [← hv.registered j]
        simp [World.view, hn]
      refine iff_of_false ?_ ?_
      · simpa [Shared.setCtx] using Ne.symm hji
      · rwa [other_of_moved (i := i) rfl hji]
  · intro j
    by_cases hji : j = i
    · subst hji
      refine .inr ⟨Ne.symm hti, ?_, ?_⟩
      · rw [State.go_self]
        exact .inl waits_readGate
      · simp [World.joinView, Shared.setCtx, Shared.setGate, Shared.newCtx]
    · rw [other_of_moved (i := i) rfl hji]
      rcases hv.places j with hset | ⟨hjt, hjoins, hd⟩
      · exact .inl hset
      · exact .inr ⟨hjt, hjoins, by rw [← hd]; exact congrArg _ (hctx j hji)⟩

/-- Nothing stores `(z_uint32)~0` in a gate. -/
theorem WorldInvariant.gate_alive {cfg : ι → Config} {w : World ι} (h : WorldInvariant cfg w)
    (t : ι) : (w.record t).tlExitGate ≠ machPortDead := by
  intro hdead
  have hgate : (w.record t).tlExitGate = 0 ∨ (w.record t).tlExitGate = (cfg t).kport :=
    (h.views t).gate
  rw [hdead] at hgate
  rcases hgate with hg | hg
  · exact absurd hg (by decide)
  · exact (cfg t).port_ne_dead hg.symm

theorem WorldInvariant.join {cfg : ι → Config} {w : World ι} (h : WorldInvariant cfg w)
    {i t : ι} (hi : w.place i = .running) (valuePtr : Bool) :
    WorldInvariant cfg (w.join cfg i t valuePtr) := by
  have halive := h.gate_alive t
  have hrec : (w.joinView i t valuePtr).mem.record = w.record t := rfl
  unfold World.join checkAndRegister
  dsimp only
  rw [hrec, if_neg halive]
  split_ifs with hinval hdeadlk
  · exact h.refused hi valuePtr EINVAL
  · exact h.refused hi valuePtr EDEADLK
  · obtain ⟨hti, hback⟩ := not_or.mp hdeadlk
    obtain ⟨hj, hn⟩ : (w.record t).tlJoinable = true ∧ (w.record t).tlJoinCtx = none := by
      simpa using hinval
    exact h.registered hi valuePtr hj hn hti hback

theorem world_initial (cfg : ι → Config) {w : World ι} (h : ThreadsInitial w) :
    WorldInvariant cfg w := by
  have hidle : ∀ t i, (w.view t).client i = .idle := by
    intro t i
    simp [World.view, h.place i, Place.client]
  refine ⟨fun t => ?_, ?_, ?_⟩
  · constructor
    · exact .inl (h.gate t)
    · have hrun : (w.view t).target = .running := by simp [World.view, h.place t, Place.target]
      rw [hrun]
      intro hs
      simp [World.view, h.joinCtx t] at hs
    · intro i
      rw [hidle t i]
      exact iff_of_false (by simp [World.view, h.joinCtx t]) (not_waits_of_settled (.inl rfl))
    · exact fun i => .inl (.inl (hidle t i))
  · simp only [h.joinCtx]
    exact ⟨by simp, by simp⟩
  · intro j t p hp
    rw [h.place j] at hp
    cases hp

theorem world_inductive (cfg : ι → Config) :
    Inductive (threadSystem cfg) anyStep (WorldInvariant cfg) where
  initial _ := world_initial cfg
  step w e h he _ := by
    cases e with
    | join i t valuePtr => exact h.join he valuePtr
    | on t e => exact h.on he

def Registered (w : World ι) (i t : ι) : Prop := ∃ p, w.place i = .joining t p ∧ p.Waits

theorem WorldInvariant.registered_iff {cfg : ι → Config} {w : World ι}
    (h : WorldInvariant cfg w) (i t : ι) :
    (w.record t).tlJoinCtx = some i ↔ Registered w i t := by
  have hv : (w.record t).tlJoinCtx = some i ↔ ((w.view t).client i).Waits :=
    (h.views t).registered i
  rw [hv]
  constructor
  · intro hw
    obtain ⟨p, hp⟩ := view_client_not_idle (w := w) (j := i) (t := t) fun hc =>
      not_waits_of_settled (.inl hc) hw
    exact ⟨p, hp, view_client hp ▸ hw⟩
  · rintro ⟨p, hp, hw⟩
    exact view_client hp ▸ hw

/-- `tl_join_ctx` names the one registered joiner of its thread, never the thread itself, and
never a thread that has this one as its joiner. -/
theorem registered_joiners {cfg : ι → Config} {w : World ι}
    (h : Reachable (threadSystem cfg) w) :
    (∀ t i, (w.record t).tlJoinCtx = some i ↔ Registered w i t) ∧
      (∀ t i j, Registered w i t → Registered w j t → i = j) ∧
      (∀ t, ¬ Registered w t t) ∧
      (∀ s t, ¬ (Registered w s t ∧ Registered w t s)) := by
  have hw := (world_inductive cfg).reachable h
  have hiff := hw.registered_iff
  refine ⟨fun t i => hiff i t, ?_, ?_, ?_⟩
  · intro t i j hi hj
    rw [← hiff] at hi hj
    exact Option.some.inj (hi.symm.trans hj)
  · intro t ht
    exact hw.linked.notSelf t ((hiff t t).mpr ht)
  · rintro s t ⟨hs, ht⟩
    exact hw.linked.notMutual s t ((hiff s t).mpr hs) ((hiff t s).mpr ht)

def pair : World Bool where
  record _ := ⟨none, 0, true, false, 0, 0x70000000e000, 0x802000⟩
  ctx _ := ⟨false, false⟩
  out _ := none
  released := []
  locals _ := ⟨0, 0, 0, false, false⟩
  place _ := .running
  result _ := 0

/-- The second of two threads that join each other is refused. -/
def crossed : World Bool :=
  runTrace (threadSystem fun _ => worker) pair [.join false true false, .join true false false]

theorem crossed_reachable : Reachable (threadSystem fun _ => worker) crossed :=
  valid_trace_reachable (S := threadSystem fun _ => worker) (s := pair)
    ⟨fun _ => rfl, fun _ => rfl, fun _ => rfl⟩ ⟨⟨rfl, trivial⟩, ⟨rfl, trivial⟩, trivial⟩

theorem crossed_registered : crossed.result true = EDEADLK ∧ Registered crossed false true ∧
    ¬ Registered crossed true false := by
  obtain ⟨hiff, -, -, hmutual⟩ := registered_joiners crossed_reachable
  have hreg : Registered crossed false true := (hiff true false).mp rfl
  exact ⟨rfl, hreg, fun hback => hmutual false true ⟨hreg, hback⟩⟩

end ThreadJoin

import LibSystemCall.ThreadJoinHandoff

/-! # The value that a join delivers

The target stores its exit value and copies it to `*value_ptr` after it has opened the gate. -/
namespace ThreadJoin

open GuardedSystem

def oneJoinForValue (s : State Unit) (e : Event Unit) : Prop :=
  oneJoin s e ∧ ∀ i, e ≠ .startJoin i false

def ReturnsZero (cfg : Config) (s : State Unit) (e : Event Unit) : Prop :=
  s.client () ≠ .returned 0 ∧ (next cfg s e).client () = .returned 0

/-- The join returns 0 only after the target has left `z_pthread_joiner_prepost_wake`. -/
def valueGuard (cfg : Config) (s : State Unit) (e : Event Unit) : Prop :=
  oneJoinForValue s e ∧ (ReturnsZero cfg s e → s.locals.needsWake = true)

def TargetPlace.Valueless (t : TargetPlace Unit) : Prop :=
  t = .running ∨ t = .split ∨ t = .storeGate ∨ t = .storeValue

def ClientPlace.Detaching (c : ClientPlace Unit) : Prop :=
  c = .detachTestJoinable ∨ c = .detachTestGate ∨ c = .detachUnsetJoinable ∨
    c = .detachTestCtx ∨ (∃ p, c = .prepost p) ∨ ∃ res, c = .wake res

structure ValueInvariant (cfg : Config) (s : State Unit) : Prop where
  places : ¬ (s.client ()).Detaching
  valuePtr : s.client () ≠ .idle → (s.mem.ctx ()).valuePtr = true
  seen : s.mem.record.tlJoinCtx.isSome = true ∨ (∃ p, s.target = .prepost p) → s.client () ≠ .idle
  stored : ¬ s.target.Valueless → s.mem.record.tlExitValue = cfg.exitValue
  copied : s.locals.needsWake = true → ¬ s.target.Valueless ∧ s.mem.out () = some cfg.exitValue
  returned : s.client () = .returned 0 → s.locals.needsWake = true

theorem zPthreadGetExitValue_eq (cfg : Config) (r : Record Unit) :
    zPthreadGetExitValue cfg r = r.tlExitValue := by
  have hc : zPthreadIsCanceled = false := by decide
  simp [zPthreadGetExitValue, hc]

structure PrepostValues (m m' : Shared Unit) : Prop where
  valuePtr : (m'.ctx ()).valuePtr = (m.ctx ()).valuePtr
  exitValue : m'.record.tlExitValue = m.record.tlExitValue
  ctx : m'.record.tlJoinCtx.isSome = true → m.record.tlJoinCtx.isSome = true
  out : m'.out () = m.out () ∨ m'.out () = some m.record.tlExitValue

theorem prepost_values (cfg : Config) (m : Shared Unit) (p : Prepost Unit) :
    PrepostValues m (prepostStep cfg m p).1 := by
  cases p with
  | loadCtx => simp only [prepostStep]; split <;> exact ⟨rfl, rfl, id, .inl rfl⟩
  | setDetached c => exact ⟨by simp [prepostStep], rfl, id, .inl rfl⟩
  | unlink c => exact ⟨rfl, rfl, by simp [prepostStep, Shared.setCtx], .inl rfl⟩
  | copyValue c =>
    simp only [prepostStep]
    split
    · refine ⟨rfl, rfl, id, .inr ?_⟩
      cases c
      rw [Shared.storeOut_self, zPthreadGetExitValue_eq]
    · exact ⟨rfl, rfl, id, .inl rfl⟩
  | _ => exact ⟨rfl, rfl, id, .inl rfl⟩

theorem prepost_finish {cfg : Config} {m : Shared Unit} {p : Prepost Unit}
    (hf : (prepostStep cfg m p).2 = .finish) (hp : (m.ctx ()).valuePtr = true) :
    (prepostStep cfg m p).1.out () = some m.record.tlExitValue := by
  cases p with
  | loadCtx =>
    simp only [prepostStep] at hf
    split at hf <;> cases hf
  | copyValue c =>
    cases c
    simp only [prepostStep]
    rw [if_pos hp, Shared.storeOut_self, zPthreadGetExitValue_eq]
  | _ => cases hf

theorem ValueInvariant.prepostRun {cfg : Config} {s : State Unit} {p : Prepost Unit}
    (h : ValueInvariant cfg s) (ht : s.target = .prepost p) :
    ValueInvariant cfg (targetStep cfg s) := by
  have hv := prepost_values cfg s.mem p
  have hf := @prepost_finish cfg s.mem p
  have hnot : ∀ q : Prepost Unit, ¬ (TargetPlace.prepost q).Valueless := by
    simp [TargetPlace.Valueless]
  have hc : s.client () ≠ .idle := h.seen (.inr ⟨p, ht⟩)
  have hex : s.mem.record.tlExitValue = cfg.exitValue := h.stored (ht ▸ hnot p)
  have hout : s.locals.needsWake = true →
      (prepostStep cfg s.mem p).1.out () = some cfg.exitValue := by
    intro hn
    rcases hv.out with ho | ho
    · exact ho.trans (h.copied hn).2
    · rw [ho, hex]
  simp only [targetStep, ht]
  generalize prepostStep cfg s.mem p = r at hv hf hout
  obtain ⟨m, q | _ | _⟩ := r
  · exact ⟨h.places, fun _ => hv.valuePtr.trans (h.valuePtr hc), fun _ => hc,
      fun _ => hv.exitValue.trans hex, fun hn => ⟨hnot q, hout hn⟩, h.returned⟩
  · exact ⟨h.places, fun _ => hv.valuePtr.trans (h.valuePtr hc), fun _ => hc,
      fun _ => hv.exitValue.trans hex,
      fun _ => ⟨by simp [TargetPlace.Valueless], (hf rfl (h.valuePtr hc)).trans (by rw [hex])⟩,
      fun _ => rfl⟩
  · exact ⟨h.places, fun _ => hv.valuePtr.trans (h.valuePtr hc), fun _ => hc,
      fun _ => hv.exitValue.trans hex,
      fun hn => ⟨by simp [TargetPlace.Valueless], hout hn⟩, h.returned⟩

theorem ValueInvariant.moves {cfg : Config} {s s' : State Unit} (h : ValueInvariant cfg s)
    (hclient : s'.client = s.client) (hctx : s'.mem.ctx = s.mem.ctx)
    (hjoin : s'.mem.record.tlJoinCtx = s.mem.record.tlJoinCtx) (hout : s'.mem.out = s.mem.out)
    (hneeds : s'.locals.needsWake = s.locals.needsWake)
    (hpre : ∀ p, s'.target = .prepost p → s.mem.record.tlJoinCtx.isSome = true)
    (hval : s'.target.Valueless → s.target.Valueless)
    (hex : ¬ s'.target.Valueless → s'.mem.record.tlExitValue = cfg.exitValue) :
    ValueInvariant cfg s' := by
  refine ⟨by rw [hclient]; exact h.places, ?_, ?_, hex, ?_, ?_⟩
  · rw [hclient, hctx]
    exact h.valuePtr
  · rw [hclient, hjoin]
    rintro (hs | ⟨p, hp⟩)
    · exact h.seen (.inl hs)
    · exact h.seen (.inl (hpre p hp))
  · rw [hneeds, hout]
    intro hn
    obtain ⟨hv, ho⟩ := h.copied hn
    exact ⟨fun hv' => hv (hval hv'), ho⟩
  · rw [hclient, hneeds]
    exact h.returned

theorem ValueInvariant.targetRun {cfg : Config} {s : State Unit} (h : ValueInvariant cfg s) :
    ValueInvariant cfg (targetStep cfg s) := by
  have hs := h.stored
  cases ht : s.target <;> rw [ht] at hs
  case prepost p => exact h.prepostRun ht
  case split =>
    obtain ⟨_, hl⟩ := enterTerminate_locals cfg s.mem.record
    have hn : s.locals.needsWake = false := by
      by_contra hn
      exact (h.copied (by simpa using hn)).1 (.inr (.inl ht))
    simp only [targetStep, ht]
    refine h.moves rfl rfl (enterTerminate_fields cfg s.mem.record).2.1 rfl (hl.trans hn.symm)
      (by simp) (fun _ => .inr (.inl ht)) fun hv => absurd (.inr (.inr (.inl rfl))) hv
  case storeValue =>
    simp only [targetStep, ht]
    exact h.moves rfl rfl rfl rfl rfl (by simp) (by simp [TargetPlace.Valueless]) fun _ => rfl
  case running | storeGate =>
    simp only [targetStep, ht]
    exact h.moves rfl rfl rfl rfl rfl (by simp) (by simp [TargetPlace.Valueless, ht])
      (by simp [TargetPlace.Valueless])
  case wake | done | fault =>
    simp only [targetStep, ht]
    exact h
  case testCtx =>
    simp only [targetStep, ht]
    refine h.moves rfl rfl rfl rfl rfl ?_ ?_ fun _ => hs (by simp [TargetPlace.Valueless])
    · intro p
      split_ifs with hc
      · exact fun _ => hc
      · simp
    · split_ifs <;> simp [TargetPlace.Valueless]
  case testJoinable | setKeep =>
    simp only [targetStep, ht, afterList]
    refine h.moves rfl rfl rfl rfl rfl ?_ ?_ fun _ => hs (by simp [TargetPlace.Valueless])
    all_goals split_ifs <;> simp [TargetPlace.Valueless]
  case retestCtx =>
    simp only [targetStep, ht]
    refine h.moves rfl rfl rfl rfl rfl ?_ ?_ fun _ => hs (by simp [TargetPlace.Valueless])
    all_goals split_ifs <;> simp [TargetPlace.Valueless]
  case setKeepAfterWake | terminate =>
    simp only [targetStep, ht]
    refine h.moves rfl rfl rfl rfl rfl ?_ ?_ fun _ => hs (by simp [TargetPlace.Valueless])
    all_goals simp [TargetPlace.Valueless]

structure ValueEffect (cfg : Config) (s s' : State Unit) : Prop where
  places : ¬ (s'.client ()).Detaching ∧ s'.client () ≠ .idle
  valuePtr : (s'.mem.ctx ()).valuePtr = (s.mem.ctx ()).valuePtr
  exitValue : s'.mem.record.tlExitValue = s.mem.record.tlExitValue
  out : s'.mem.out () = s.mem.out () ∨ s'.mem.out () = some s.mem.record.tlExitValue

theorem run_values {cfg : Config} {s : State Unit} (hd : ¬ (s.client ()).Detaching)
    (hr : (s.client ()).runs = true) : ValueEffect cfg s (clientStep cfg s ()) := by
  have goes : ∀ (m : Shared Unit) (q : ClientPlace Unit), ¬ q.Detaching → q ≠ .idle →
      m.ctx = s.mem.ctx → m.record.tlExitValue = s.mem.record.tlExitValue → m.out = s.mem.out →
      ValueEffect cfg s (({ s with mem := m } : State Unit).go () q) := by
    intro m q hq hidle hctx hex hout
    refine ⟨?_, congrArg (fun f => (f ()).valuePtr) hctx, hex, .inl (congrFun hout ())⟩
    rw [State.go_self]
    exact ⟨hq, hidle⟩
  have returns : ∀ (m : Shared Unit) res, m.ctx = s.mem.ctx →
      m.record.tlExitValue = s.mem.record.tlExitValue → m.out = s.mem.out →
      ValueEffect cfg s (({ s with mem := m } : State Unit).finish () res) :=
    fun m res => goes m _ (by simp [ClientPlace.Detaching]) (by simp)
  unfold clientStep
  cases hc : s.client () <;> rw [hc] at hr hd <;> dsimp only
  case idle | wait | asleep | wake | returned | fault => cases hr
  case prepost p => exact absurd (by simp [ClientPlace.Detaching]) hd
  case detachTestJoinable | detachTestGate | detachUnsetJoinable | detachTestCtx =>
    exact absurd (by simp [ClientPlace.Detaching]) hd
  case joinTestJoinable | joinTestCtx | testDetached | readCleansUp | deallocate =>
    split_ifs
    all_goals
      first
      | exact returns _ _ rfl rfl rfl
      | exact goes _ _ (by simp [ClientPlace.Detaching]) (by simp) rfl rfl rfl
  case joinTestGate | readGate =>
    refine goes _ _ ?_ ?_ rfl rfl rfl
    all_goals split_ifs <;> simp [ClientPlace.Detaching]
  case joinCopyValue =>
    by_cases hv : (s.mem.ctx ()).valuePtr = true
    · rw [if_pos hv]
      refine ⟨by simp [ClientPlace.Detaching], rfl, rfl, .inr ?_⟩
      exact (Shared.storeOut_self cfg s.mem ()).trans (by rw [zPthreadGetExitValue_eq])
    · rw [if_neg hv]
      exact goes _ _ (by simp [ClientPlace.Detaching]) (by simp) rfl rfl rfl
  case unmap => exact returns _ _ rfl rfl rfl
  case joinTestSelf | joinUnsetJoinable | storeGate | storeCtx | clearCtx =>
    exact goes _ _ (by simp [ClientPlace.Detaching]) (by simp) rfl rfl rfl

theorem ValueInvariant.joiner {cfg : Config} {s s' : State Unit} (h : ValueInvariant cfg s)
    (he : ValueEffect cfg s s') (hc : s.client () ≠ .idle) (ht : s'.target = s.target)
    (hl : s'.locals = s.locals)
    (hg : s'.client () = .returned 0 → s.locals.needsWake = true) : ValueInvariant cfg s' := by
  refine ⟨he.places.1, fun _ => he.valuePtr.trans (h.valuePtr hc), fun _ => he.places.2, ?_, ?_, ?_⟩
  · rw [ht, he.exitValue]
    exact h.stored
  · rw [ht, hl]
    intro hn
    obtain ⟨hv, ho⟩ := h.copied hn
    refine ⟨hv, ?_⟩
    rcases he.out with heq | heq
    · exact heq.trans ho
    · rw [heq, h.stored hv]
  · rw [hl]
    exact hg

theorem ValueInvariant.goes {cfg : Config} {s : State Unit} {q : ClientPlace Unit}
    (h : ValueInvariant cfg s) (hc : s.client () ≠ .idle) (hq : ¬ q.Detaching ∧ q ≠ .idle)
    (hg : q = .returned 0 → s.locals.needsWake = true) : ValueInvariant cfg (s.go () q) :=
  h.joiner ⟨by simpa using hq, rfl, rfl, .inl rfl⟩ hc rfl rfl (by simpa using hg)

theorem ValueInvariant.retest {cfg : Config} {s : State Unit} (h : ValueInvariant cfg s)
    (ht : s.target = .wake) : ValueInvariant cfg { s with target := .retestCtx } := by
  obtain ⟨h1, h2, h3, h4, h5, h6⟩ := h
  refine ⟨h1, h2, fun hs => h3 (.inl ?_), fun _ => h4 ?_, fun hn => ⟨?_, (h5 hn).2⟩, h6⟩
  · simpa using hs
  · simp [ht, TargetPlace.Valueless]
  · simp [TargetPlace.Valueless]

theorem value_step {cfg : Config} {s : State Unit} {e : Event Unit} (h : ValueInvariant cfg s)
    (he : Enabled cfg s e) (hg : valueGuard cfg s e) : ValueInvariant cfg (next cfg s e) := by
  obtain ⟨⟨hone, hptr⟩, hret⟩ := hg
  cases e with
  | startJoin i valuePtr =>
    have hn : s.locals.needsWake ≠ true := fun hn => (h.copied hn).1 (.inl hone.1)
    cases valuePtr with
    | false => exact absurd rfl (hptr i)
    | true =>
      refine ⟨?_, fun _ => ?_, fun _ => ?_, h.stored, fun hn' => absurd hn' hn, fun hc => ?_⟩
      · simp [next, ClientPlace.Detaching]
      · simp [next, Shared.newCtx]
      · simp [next]
      · simp [next] at hc
  | startDetach i => exact hone.elim
  | targetRun => exact h.targetRun
  | targetWake woken =>
    obtain ⟨ht, hw⟩ := he
    have hwoken : ValueInvariant cfg (s.wake woken) := by
      cases woken with
      | none => exact h
      | some j =>
        have hw : s.client () = .asleep := hw
        exact h.goes (by simp [hw]) (by simp [ClientPlace.Detaching]) (by simp)
    exact hwoken.retest (by cases woken <;> exact ht)
  | run i =>
    obtain ⟨ht, hl⟩ := clientStep_target cfg s ()
    have hr : (s.client ()).runs = true := he
    refine h.joiner (run_values h.places hr) ?_ ht hl fun h0 => hret ⟨?_, h0⟩
    · intro hc
      rw [hc] at hr
      cases hr
    · intro hc
      rw [hc] at hr
      cases hr
  | deadlock i =>
    have he : s.client () = .joinTestSelf := he
    refine h.goes (by simp [he]) (by simp [ClientPlace.Detaching]) fun h0 => hret ⟨by simp [he], ?_⟩
    simpa [next, State.finish] using h0
  | sleep i =>
    have he : s.client () = .wait := he.1
    exact h.goes (by simp [he]) (by simp [ClientPlace.Detaching]) (by simp)
  | waitReturns i =>
    have hc : s.client () ≠ .idle := by
      rcases he with hi | hi <;> simp [hi]
    exact h.goes hc (by simp [ClientPlace.Detaching]) (by simp)
  | wake i woken =>
    obtain ⟨res, he⟩ := waking_isSome he.1
    have hdetach : (s.client ()).Detaching := by
      rw [show s.client () = .wake res from he]
      simp [ClientPlace.Detaching]
    exact absurd hdetach h.places

theorem value_inductive (cfg : Config) :
    Inductive (joinSystem (ι := Unit) cfg) (valueGuard cfg) (ValueInvariant cfg) where
  initial s h := by
    have hc := h.client ()
    refine ⟨?_, fun hi => absurd hc hi, ?_, fun hv => ?_, ?_, ?_⟩
    · simp [hc, ClientPlace.Detaching]
    · simp [h.joinCtx, h.target]
    · exact absurd (.inl h.target) hv
    · simp [h.locals.2]
    · simp [hc]
  step _ _ h he hg := value_step h he hg

/-- A join that returns 0 behind the copy of the exit value has that value. -/
theorem join_delivers_exit_value {cfg : Config} {s : State Unit}
    (h : ReachableUnder (joinSystem cfg) (valueGuard cfg) s) (hr : s.client () = .returned 0) :
    s.mem.out () = some cfg.exitValue := by
  have hi := (value_inductive cfg).reachable h
  exact (hi.copied (hi.returned hr)).2

instance (s : State Unit) (e : Event Unit) : Decidable (oneJoinForValue s e) :=
  inferInstanceAs (Decidable (oneJoin s e ∧ ∀ i, e ≠ .startJoin i false))

instance (cfg : Config) (s : State Unit) (e : Event Unit) : Decidable (valueGuard cfg s e) :=
  inferInstanceAs (Decidable (oneJoinForValue s e ∧
    (s.client () ≠ .returned 0 ∧ (next cfg s e).client () = .returned 0 →
      s.locals.needsWake = true)))

theorem join_delivers_42 :
    let s := runTrace (joinSystem worker) started
      ([.startJoin () true] ++ List.replicate 7 (.run ()) ++ [.sleep ()] ++
        List.replicate 10 .targetRun ++ [.targetWake (some ())] ++ List.replicate 4 (.run ()))
    s.client () = .returned 0 ∧ s.mem.out () = some 42 :=
  ⟨by decide, join_delivers_exit_value (valid_trace_reachable started_initial (by decide))
    (by decide)⟩

/-- A joiner that reads the gate right after the target has opened it returns without a value. -/
theorem early_joiner_gets_no_value :
    ∃ s, ReachableUnder (joinSystem worker) oneJoinForValue s ∧ s.client () = .returned 0 ∧
      s.mem.out () ≠ some worker.exitValue :=
  ⟨runTrace (joinSystem worker) started
      ([.startJoin () true] ++ List.replicate 6 (.run ()) ++ List.replicate 3 .targetRun ++
        List.replicate 4 (.run ())),
    valid_trace_reachable started_initial (by decide), by decide, by decide⟩

end ThreadJoin

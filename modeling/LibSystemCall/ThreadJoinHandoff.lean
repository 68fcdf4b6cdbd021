import LibSystemCall.ThreadJoin

/-! # Who frees the record of a joined thread

One join that begins before the target exits. The exiting thread and the joiner decide by
`tl_join_ctx` and `tl_joiner_cleans_up` who frees the record, in steps that nothing makes
atomic. -/
namespace ThreadJoin

open GuardedSystem

def oneJoin (s : State Unit) : Event Unit → Prop
  | .startJoin _ _ => s.target = .running ∧ s.client () = .idle
  | .startDetach _ => False
  | _ => True

/-- The target is joinable and its record lies in the memory that it frees. -/
structure Mapped (cfg : Config) (s : State Unit) : Prop where
  joinable : s.mem.record.tlJoinable = true
  freeaddr_le : s.mem.record.freeaddr ≤ cfg.self
  lt_end : cfg.self < s.mem.record.freeaddr + s.mem.record.freesize

def handoffSystem (cfg : Config) : System (State Unit) (Event Unit) :=
  { joinSystem cfg with Initial := fun s => Initial s ∧ Mapped cfg s }

def Seen (s : State Unit) : Prop := (∃ p, s.target = .prepost p) ∨ s.locals.needsWake = true

/-- The target has committed the joiner to free the record, or it has seen the joiner and
neither decided to keep the record for it nor freed the record. -/
def Committed (s : State Unit) : Prop :=
  s.mem.record.tlJoinerCleansUp = true ∨
    Seen s ∧ s.target ≠ .setKeepAfterWake ∧ s.target ≠ .done

def handoffGuard (s : State Unit) (e : Event Unit) : Prop :=
  oneJoin s e ∧ (e = .run () → s.client () = .readCleansUp → Committed s)

def Covers (cfg : Config) (addr size : ℕ) : Prop := addr ≤ cfg.self ∧ cfg.self < addr + size

instance (cfg : Config) (addr size : ℕ) : Decidable (Covers cfg addr size) :=
  inferInstanceAs (Decidable (addr ≤ cfg.self ∧ cfg.self < addr + size))

def releases (cfg : Config) (s : State Unit) : ℕ :=
  s.mem.released.countP fun r => Covers cfg r.1 r.2

def TargetPlace.touches : TargetPlace Unit → Prop
  | .running | .wake | .terminate | .done | .fault | .prepost (.setDetached _) => False
  | _ => True

def ClientPlace.touches : ClientPlace Unit → Prop
  | .testDetached | .unmap _ _ | .prepost (.setDetached _) => False
  | _ => True

/-- The step reads or writes the record; `z_ulock_wait` reads the gate for its caller. -/
def Accesses (s : State Unit) : Event Unit → Prop
  | .targetRun => s.target.touches
  | .run i => (s.client i).touches
  | .sleep _ | .waitReturns _ => True
  | _ => False

def ClientPlace.Registered (c : ClientPlace Unit) : Prop :=
  c = .readGate ∨ c = .wait ∨ c = .asleep ∨ c = .testDetached ∨ c = .clearCtx

def ClientPlace.Freeing (c : ClientPlace Unit) : Prop :=
  c = .deallocate ∨ ∃ a n, c = .unmap a n

def ClientPlace.Before (c : ClientPlace Unit) : Prop :=
  c = .idle ∨ c = .joinTestJoinable ∨ c = .joinTestCtx ∨ c = .joinTestSelf ∨ c = .joinTestGate ∨
    c = .storeGate ∨ c = .storeCtx ∨ c = .returned EINVAL ∨ c = .returned EDEADLK

theorem ClientPlace.Registered.not_other {c : ClientPlace Unit} (h : c.Registered) :
    ¬ c.Before ∧ ¬ c.Freeing ∧ c ≠ .returned 0 := by
  rcases h with rfl | rfl | rfl | rfl | rfl <;> simp [Before, Freeing]

theorem ClientPlace.Before.not_other {c : ClientPlace Unit} (h : c.Before) :
    ¬ c.Registered ∧ ¬ c.Freeing ∧ c ≠ .returned 0 := by
  rcases h with rfl | rfl | rfl | rfl | rfl | rfl | rfl | rfl | rfl <;>
    simp [Registered, Freeing, EINVAL, EDEADLK]

theorem ClientPlace.Freeing.not_other {c : ClientPlace Unit} (h : c.Freeing) :
    ¬ c.Before ∧ ¬ c.Registered ∧ c ≠ .returned 0 := by
  rcases h with rfl | ⟨a, n, rfl⟩ <;> simp [Before, Registered]

theorem readCleansUp_not_other : ¬ (.readCleansUp : ClientPlace Unit).Before ∧
    ¬ (.readCleansUp : ClientPlace Unit).Registered ∧
    ¬ (.readCleansUp : ClientPlace Unit).Freeing := by
  simp [ClientPlace.Before, ClientPlace.Registered, ClientPlace.Freeing]

theorem returned_not_other : ¬ (.returned 0 : ClientPlace Unit).Before ∧
    ¬ (.returned 0 : ClientPlace Unit).Registered ∧
    ¬ (.returned 0 : ClientPlace Unit).Freeing := by
  simp [ClientPlace.Before, ClientPlace.Registered, ClientPlace.Freeing, EINVAL, EDEADLK]

def TargetPlace.AfterPrepost (t : TargetPlace Unit) : Prop :=
  t = .testJoinable ∨ t = .wake ∨ t = .retestCtx ∨ t = .setKeepAfterWake ∨ t = .terminate ∨
    t = .done

def TargetPlace.Alone (t : TargetPlace Unit) : Prop :=
  t = .running ∨ t = .split ∨ t = .storeGate ∨ t = .storeValue ∨ t = .testCtx ∨
    t = .testJoinable ∨ t = .setKeep ∨ t = .terminate ∨ t = .done ∨ t = .fault

def TargetPlace.Over (t : TargetPlace Unit) : Prop := t = .terminate ∨ t = .done

structure JoinerInvariant (s : State Unit) : Prop where
  attached : s.client () ≠ .idle → (s.mem.ctx ()).detached = false
  joining : s.client () ≠ .idle → s.detaching () = false
  gate : s.mem.record.tlExitGate ≠ machPortDead
  places : (s.client ()).Before ∨ (s.client ()).Registered ∨ s.client () = .readCleansUp ∨
    (s.client ()).Freeing ∨ s.client () = .returned 0
  ctx : s.mem.record.tlJoinCtx.isSome = true ↔ (s.client ()).Registered

structure HandoffInvariant (s : State Unit) : Prop where
  alone : s.locals.needsWake = false → s.target.Alone ∧ s.mem.record.tlJoinable = true ∨
    s.target = .prepost .loadCtx ∧ s.mem.record.tlJoinable = true ∨
    s.target = .prepost (.testJoinable ()) ∧ s.mem.record.tlJoinable = true ∨
    s.target = .prepost (.unsetJoinable ()) ∧ s.mem.record.tlJoinable = true ∨
    s.target = .prepost (.copyValue ()) ∧ s.mem.record.tlJoinable = false
  preposted : s.locals.needsWake = true → s.target.AfterPrepost ∧ s.mem.record.tlJoinable = false
  keep : s.mem.record.tlJoinerCleansUp = s.locals.keepThreadStruct
  kept : s.locals.keepThreadStruct = true → s.target.Over
  seen : Seen s → ¬ (s.client ()).Before
  ended : s.target.Over → s.locals.keepThreadStruct = true ∨
    s.locals.needsWake = true ∧ ¬ (s.client ()).Registered
  keeping : s.target = .setKeepAfterWake →
    (s.client ()).Registered ∨ s.client () = .readCleansUp
  freeing : (s.client ()).Freeing → s.mem.record.tlJoinerCleansUp = true
  joined : s.client () = .returned 0 →
    s.mem.record.tlJoinerCleansUp = true ∨ Seen s ∨ s.target = .fault

theorem prepost_keeps (cfg : Config) (m : Shared Unit) {p : Prepost Unit}
    (hd : ∀ c, p ≠ .setDetached c) (hu : ∀ c, p ≠ .unlink c) :
    (prepostStep cfg m p).1.ctx = m.ctx ∧
      (prepostStep cfg m p).1.record.tlJoinCtx = m.record.tlJoinCtx := by
  cases p with
  | setDetached c => exact absurd rfl (hd c)
  | unlink c => exact absurd rfl (hu c)
  | loadCtx => simp only [prepostStep]; split <;> exact ⟨rfl, rfl⟩
  | copyValue c => simp only [prepostStep]; split <;> exact ⟨rfl, rfl⟩
  | _ => exact ⟨rfl, rfl⟩

theorem HandoffInvariant.not_waking {s : State Unit} (h : HandoffInvariant s)
    (ht : ¬ s.target.AfterPrepost) : s.locals.needsWake = false := by
  by_contra hn
  exact ht (h.preposted (by simpa using hn)).1

/-- Only `z_pthread_joiner_prepost_wake` unsets `tl_joinable`, and then there is a wake. -/
theorem HandoffInvariant.still_joinable {s : State Unit} (h : HandoffInvariant s)
    (hp : ∀ p, s.target ≠ .prepost p) (hn : s.locals.needsWake = false) :
    s.target.Alone ∧ s.mem.record.tlJoinable = true := by
  rcases h.alone hn with ha | ha | ha | ha | ha
  · exact ha
  all_goals exact absurd ha.1 (hp _)

/-- The wake is only decided at the end of `z_pthread_joiner_prepost_wake`. -/
theorem HandoffInvariant.prepost_undecided {s : State Unit} {p : Prepost Unit}
    (h : HandoffInvariant s) (ht : s.target = .prepost p) : s.locals.needsWake = false :=
  h.not_waking (by simp [ht, TargetPlace.AfterPrepost])

theorem HandoffInvariant.prepost_place {s : State Unit} {p : Prepost Unit}
    (h : HandoffInvariant s) (ht : s.target = .prepost p) :
    (∀ c, p ≠ .setDetached c) ∧ ∀ c, p ≠ .unlink c := by
  have ha := h.alone (h.prepost_undecided ht)
  simp only [ht, TargetPlace.prepost.injEq] at ha
  rcases ha with ⟨ha, -⟩ | ⟨rfl, -⟩ | ⟨rfl, -⟩ | ⟨rfl, -⟩ | ⟨rfl, -⟩
  · simp [TargetPlace.Alone] at ha
  all_goals exact ⟨by simp, by simp⟩

theorem targetStep_joiner (cfg : Config) {s : State Unit} (hh : HandoffInvariant s) :
    (targetStep cfg s).mem.ctx = s.mem.ctx ∧ (targetStep cfg s).detaching = s.detaching ∧
      (targetStep cfg s).mem.record.tlJoinCtx = s.mem.record.tlJoinCtx ∧
      ((targetStep cfg s).mem.record.tlExitGate = 0 ∨
        (targetStep cfg s).mem.record.tlExitGate = s.mem.record.tlExitGate) := by
  have hf := enterTerminate_fields cfg s.mem.record
  unfold targetStep
  cases ht : s.target <;> dsimp only
  case split => exact ⟨rfl, rfl, hf.2.1, .inr hf.1⟩
  case storeGate => exact ⟨rfl, rfl, rfl, .inl rfl⟩
  case prepost p =>
    have hg := prepost_gate cfg s.mem p
    obtain ⟨hd, hu⟩ := hh.prepost_place ht
    obtain ⟨hc, hj⟩ := prepost_keeps cfg s.mem hd hu
    generalize prepostStep cfg s.mem p = r at hg hc hj
    obtain ⟨m, _ | _ | _⟩ := r <;> exact ⟨hc, rfl, hj, .inr hg⟩
  all_goals exact ⟨rfl, rfl, rfl, .inr rfl⟩

theorem JoinerInvariant.targetRun {cfg : Config} {s : State Unit} (h : JoinerInvariant s)
    (hh : HandoffInvariant s) : JoinerInvariant (targetStep cfg s) := by
  obtain ⟨hctx, hdet, hjoin, hgate⟩ := targetStep_joiner cfg hh
  refine ⟨?_, ?_, ?_, ?_, ?_⟩
  · rw [hctx, targetStep_client]
    exact h.attached
  · rw [hdet, targetStep_client]
    exact h.joining
  · rcases hgate with hg | hg
    · rw [hg]
      decide
    · rw [hg]
      exact h.gate
  · rw [targetStep_client]
    exact h.places
  · rw [targetStep_client, hjoin]
    exact h.ctx

theorem HandoffInvariant.not_kept {s : State Unit} (h : HandoffInvariant s)
    (ht : ¬ s.target.Over) : s.locals.keepThreadStruct = false := by
  by_contra hk
  exact ht (h.kept (by simpa using hk))

/-- A target that has not seen the joiner goes on with `tl_joinable` set. -/
theorem HandoffInvariant.unseen {s : State Unit} (h : HandoffInvariant s)
    (ht : ¬ s.target.AfterPrepost ∧ ∀ p, s.target ≠ .prepost p) :
    s.locals.needsWake = false ∧ s.mem.record.tlJoinable = true ∧ ¬ Seen s := by
  have hn := h.not_waking ht.1
  refine ⟨hn, (h.still_joinable ht.2 hn).2, ?_⟩
  rintro (⟨p, hp⟩ | hs)
  · exact ht.2 p hp
  · rw [hn] at hs
    cases hs

theorem HandoffInvariant.advance {s s' : State Unit} (h : HandoffInvariant s)
    (hclient : s'.client = s.client)
    (hcl : s'.mem.record.tlJoinerCleansUp = s.mem.record.tlJoinerCleansUp)
    (hkeep : s'.locals.keepThreadStruct = s.locals.keepThreadStruct)
    (hkept : s.locals.keepThreadStruct = false ∨ s'.target.Over)
    (hphase : (s'.locals.needsWake = false → s'.target.Alone ∧ s'.mem.record.tlJoinable = true ∨
        s'.target = .prepost .loadCtx ∧ s'.mem.record.tlJoinable = true ∨
        s'.target = .prepost (.testJoinable ()) ∧ s'.mem.record.tlJoinable = true ∨
        s'.target = .prepost (.unsetJoinable ()) ∧ s'.mem.record.tlJoinable = true ∨
        s'.target = .prepost (.copyValue ()) ∧ s'.mem.record.tlJoinable = false) ∧
      (s'.locals.needsWake = true →
        s'.target.AfterPrepost ∧ s'.mem.record.tlJoinable = false))
    (hseen : Seen s' → ¬ (s.client ()).Before)
    (hended : s'.target.Over → s.locals.keepThreadStruct = true ∨
      s'.locals.needsWake = true ∧ ¬ (s.client ()).Registered)
    (hkeeping : s'.target = .setKeepAfterWake →
      (s.client ()).Registered ∨ s.client () = .readCleansUp)
    (hjoined : s.client () = .returned 0 →
      s.mem.record.tlJoinerCleansUp = true ∨ Seen s' ∨ s'.target = .fault) :
    HandoffInvariant s' := by
  refine ⟨hphase.1, hphase.2, hcl.trans (h.keep.trans hkeep.symm), ?_, ?_, ?_, ?_, ?_, ?_⟩
  · rw [hkeep]
    intro hk
    exact hkept.resolve_left (by simp [hk])
  · rwa [hclient]
  · rwa [hclient, hkeep]
  · rwa [hclient]
  · rw [hclient, hcl]
    exact h.freeing
  · rwa [hclient, hcl]

/-- Up to its first look at `tl_join_ctx` the target keeps the decision open. -/
theorem HandoffInvariant.early {s s' : State Unit} (h : HandoffInvariant s)
    (hnot : ¬ s.target.AfterPrepost ∧ ∀ p, s.target ≠ .prepost p) (hf : s.target ≠ .fault)
    (hover : ¬ s.target.Over) (hclient : s'.client = s.client)
    (hr : s'.mem.record.tlJoinable = s.mem.record.tlJoinable)
    (hcl : s'.mem.record.tlJoinerCleansUp = s.mem.record.tlJoinerCleansUp)
    (hkeep : s'.locals.keepThreadStruct = false) (hneeds : s'.locals.needsWake = false)
    (hgo : s'.target.Alone ∧ ¬ s'.target.Over ∨
      s'.target = .prepost .loadCtx ∧ (s.client ()).Registered) :
    HandoffInvariant s' := by
  obtain ⟨hn, hj, hs⟩ := h.unseen hnot
  have hk := h.not_kept hover
  have hjoinable := hr.trans hj
  have hreturned : s.client () ≠ .returned 0 := by
    intro hc
    rcases h.joined hc with hcu | hseen | hfault
    · rw [h.keep, hk] at hcu
      cases hcu
    · exact hs hseen
    · exact hf hfault
  refine h.advance hclient hcl (hkeep.trans hk.symm) (.inl hk) ⟨fun _ => ?_, by simp [hneeds]⟩
    ?_ ?_ ?_
    fun hc => absurd hc hreturned
  · rcases hgo with ⟨ha, _⟩ | ⟨hp, _⟩
    · exact .inl ⟨ha, hjoinable⟩
    · exact .inr (.inl ⟨hp, hjoinable⟩)
  · rintro (⟨p, hp⟩ | hw)
    · rcases hgo with ⟨ha, _⟩ | ⟨_, hc⟩
      · simp [hp, TargetPlace.Alone] at ha
      · exact hc.not_other.1
    · rw [hneeds] at hw
      cases hw
  · intro ho
    rcases hgo with ⟨_, hno⟩ | ⟨hp, _⟩
    · exact absurd ho hno
    · simp [hp, TargetPlace.Over] at ho
  · intro ht
    rcases hgo with ⟨ha, _⟩ | ⟨hp, _⟩
    · simp [ht, TargetPlace.Alone] at ha
    · rw [hp] at ht
      cases ht

theorem HandoffInvariant.prepostRun {cfg : Config} {s : State Unit} {p : Prepost Unit}
    (h : HandoffInvariant s) (ht : s.target = .prepost p) :
    HandoffInvariant (targetStep cfg s) := by
  have hk := h.not_kept (by simp [ht, TargetPlace.Over])
  have hb : ¬ (s.client ()).Before := h.seen (.inl ⟨p, ht⟩)
  have hn := h.prepost_undecided ht
  have ha := h.alone hn
  simp only [ht, TargetPlace.prepost.injEq] at ha
  cases p with
  | loadCtx =>
    have hj : s.mem.record.tlJoinable = true := by simpa [TargetPlace.Alone] using ha
    simp only [targetStep, ht, prepostStep]
    cases hc : s.mem.record.tlJoinCtx with
    | none =>
      exact h.advance rfl rfl rfl (.inl hk) ⟨fun _ => .inl ⟨by simp [TargetPlace.Alone], hj⟩,
        by simp [hn]⟩ (fun _ => hb) (by simp [TargetPlace.Over]) (by simp) fun _ => .inr (.inr rfl)
    | some c =>
      exact h.advance rfl rfl rfl (.inl hk) ⟨fun _ => .inr (.inr (.inl ⟨rfl, hj⟩)), by simp [hn]⟩
        (fun _ => hb) (by simp [TargetPlace.Over]) (by simp) fun _ => .inr (.inl (.inl ⟨_, rfl⟩))
  | testJoinable c =>
    have hj : s.mem.record.tlJoinable = true := by simpa [TargetPlace.Alone] using ha
    simp only [targetStep, ht, prepostStep, hj, if_true]
    exact h.advance rfl rfl rfl (.inl hk) ⟨fun _ => .inr (.inr (.inr (.inl ⟨rfl, hj⟩))),
      by simp [hn]⟩ (fun _ => hb) (by simp [TargetPlace.Over]) (by simp)
      fun _ => .inr (.inl (.inl ⟨_, rfl⟩))
  | unsetJoinable c =>
    simp only [targetStep, ht, prepostStep]
    exact h.advance rfl rfl rfl (.inl hk) ⟨fun _ => .inr (.inr (.inr (.inr ⟨rfl, rfl⟩))),
      by simp [hn]⟩ (fun _ => hb) (by simp [TargetPlace.Over]) (by simp)
      fun _ => .inr (.inl (.inl ⟨_, rfl⟩))
  | copyValue c =>
    have hj : s.mem.record.tlJoinable = false := by simpa [TargetPlace.Alone] using ha
    have hrec : (if (s.mem.ctx c).valuePtr = true then s.mem.storeOut cfg c else s.mem).record =
        s.mem.record := by split_ifs <;> rfl
    simp only [targetStep, ht, prepostStep]
    exact h.advance rfl (by rw [hrec]) rfl (.inl hk)
      ⟨by simp, fun _ => ⟨by simp [TargetPlace.AfterPrepost], by rw [hrec]; exact hj⟩⟩
      (fun _ => hb) (by simp [TargetPlace.Over]) (by simp) fun _ => .inr (.inl (.inr rfl))
  | setDetached c | unlink c => simp [TargetPlace.Alone] at ha

theorem seen_iff {s : State Unit} (hp : ∀ p, s.target ≠ .prepost p) :
    Seen s ↔ s.locals.needsWake = true :=
  ⟨fun h => h.resolve_left fun ⟨p, ht⟩ => hp p ht, .inr⟩

/-- After the wake-up phase began, the list and the second look only move the target. -/
theorem HandoffInvariant.goes {s s' : State Unit} (h : HandoffInvariant s)
    (hf : s.target ≠ .fault) (hp : ∀ p, s.target ≠ .prepost p) (hp' : ∀ p, s'.target ≠ .prepost p)
    (hclient : s'.client = s.client)
    (hr : s'.mem.record = s.mem.record) (hl : s'.locals = s.locals)
    (hkept : s.locals.keepThreadStruct = false ∨ s'.target.Over)
    (halone : s.locals.needsWake = false → s'.target.Alone)
    (hpre : s.locals.needsWake = true → s'.target.AfterPrepost)
    (hended : s'.target.Over → s.locals.keepThreadStruct = true ∨
      s.locals.needsWake = true ∧ ¬ (s.client ()).Registered)
    (hkeeping : s'.target = .setKeepAfterWake →
      (s.client ()).Registered ∨ s.client () = .readCleansUp) : HandoffInvariant s' := by
  have hseen : Seen s' ↔ Seen s := by rw [seen_iff hp, seen_iff hp', hl]
  refine h.advance hclient (by rw [hr]) (by rw [hl]) hkept ⟨?_, ?_⟩ ?_ (by rwa [hl]) hkeeping ?_
  · rw [hl, hr]
    intro hn
    exact .inl ⟨halone hn, (h.still_joinable hp hn).2⟩
  · rw [hl, hr]
    intro hn
    exact ⟨hpre hn, (h.preposted hn).2⟩
  · rw [hseen]
    exact h.seen
  · rw [hseen]
    intro hc
    exact (h.joined hc).imp_right fun hs => hs.imp_right fun ht => absurd ht hf

theorem HandoffInvariant.commits {s s' : State Unit} (h : HandoffInvariant s)
    (hp : ∀ p, s.target ≠ .prepost p) (hclient : s'.client = s.client)
    (hj : s'.mem.record.tlJoinable = s.mem.record.tlJoinable)
    (hn : s'.locals.needsWake = s.locals.needsWake)
    (hcl : s'.mem.record.tlJoinerCleansUp = true) (hkeep : s'.locals.keepThreadStruct = true)
    (ht : s'.target = .terminate) : HandoffInvariant s' := by
  have hseen : Seen s' ↔ Seen s := by rw [seen_iff hp, seen_iff (by simp [ht]), hn]
  refine ⟨?_, ?_, hcl.trans hkeep.symm, fun _ => .inl ht, ?_, fun _ => .inl hkeep, ?_,
    fun _ => hcl, fun _ => .inl hcl⟩
  · rw [hn, hj]
    intro hn
    exact .inl ⟨by simp [ht, TargetPlace.Alone], (h.still_joinable hp hn).2⟩
  · rw [hn, hj]
    intro hn
    exact ⟨by simp [ht, TargetPlace.AfterPrepost], (h.preposted hn).2⟩
  · rw [hseen, hclient]
    exact h.seen
  · simp [ht]

theorem HandoffInvariant.targetRun {cfg : Config} {s : State Unit} (h : JoinerInvariant s)
    (hh : HandoffInvariant s) : HandoffInvariant (targetStep cfg s) := by
  cases ht : s.target
  case prepost p => exact hh.prepostRun ht
  case wake | done | fault =>
    simp only [targetStep, ht]
    exact hh
  case split =>
    obtain ⟨_, _, hj, hcl⟩ := enterTerminate_fields cfg s.mem.record
    obtain ⟨hk, hn⟩ := enterTerminate_locals cfg s.mem.record
    simp only [targetStep, ht]
    exact hh.early (by simp [ht, TargetPlace.AfterPrepost]) (by simp [ht])
      (by simp [ht, TargetPlace.Over]) rfl hj hcl hk hn
      (.inl (by simp [TargetPlace.Alone, TargetPlace.Over]))
  case running | storeGate | storeValue =>
    have hn := (hh.unseen (by simp [ht, TargetPlace.AfterPrepost])).1
    have hk := hh.not_kept (by simp [ht, TargetPlace.Over])
    simp only [targetStep, ht]
    exact hh.early (by simp [ht, TargetPlace.AfterPrepost]) (by simp [ht])
      (by simp [ht, TargetPlace.Over]) rfl rfl rfl hk hn
      (.inl (by simp [TargetPlace.Alone, TargetPlace.Over]))
  case testCtx =>
    have hn := (hh.unseen (by simp [ht, TargetPlace.AfterPrepost])).1
    have hk := hh.not_kept (by simp [ht, TargetPlace.Over])
    simp only [targetStep, ht]
    refine hh.early (by simp [ht, TargetPlace.AfterPrepost]) (by simp [ht])
      (by simp [ht, TargetPlace.Over]) rfl rfl rfl hk hn ?_
    split_ifs with hc
    · exact .inr ⟨rfl, h.ctx.mp hc⟩
    · exact .inl (by simp [TargetPlace.Alone, TargetPlace.Over])
  case testJoinable =>
    have hk := hh.not_kept (by simp [ht, TargetPlace.Over])
    simp only [targetStep, ht]
    cases hj : s.mem.record.tlJoinable
    · have hn : s.locals.needsWake = true := by
        by_contra hn
        have ha := (hh.still_joinable (by simp [ht]) (by simpa using hn)).2
        rw [hj] at ha
        cases ha
      simp only [Bool.false_eq_true, if_false, afterList, hn, if_true]
      exact hh.goes (by simp [ht]) (by simp [ht]) (by simp) rfl rfl rfl (.inl hk) (by simp [hn])
        (by simp [TargetPlace.AfterPrepost]) (by simp [TargetPlace.Over]) (by simp)
    · have hn : s.locals.needsWake ≠ true := by
        intro hn
        have hp := (hh.preposted hn).2
        rw [hj] at hp
        cases hp
      simp only [if_true]
      exact hh.goes (by simp [ht]) (by simp [ht]) (by simp) rfl rfl rfl (.inl hk)
        (by simp [TargetPlace.Alone]) (fun hn' => absurd hn' hn) (by simp [TargetPlace.Over])
        (by simp)
  case setKeep =>
    have hn := (hh.unseen (by simp [ht, TargetPlace.AfterPrepost])).1
    simp only [targetStep, ht]
    exact hh.commits (by simp [ht]) rfl rfl rfl rfl rfl (by simp [afterList, hn])
  case setKeepAfterWake =>
    simp only [targetStep, ht]
    exact hh.commits (by simp [ht]) rfl rfl rfl rfl rfl rfl
  case retestCtx =>
    have hk := hh.not_kept (by simp [ht, TargetPlace.Over])
    have hn : s.locals.needsWake = true := by
      by_contra hn
      have ha := (hh.still_joinable (by simp [ht]) (by simpa using hn)).1
      simp [ht, TargetPlace.Alone] at ha
    simp only [targetStep, ht]
    split_ifs with hc
    · exact hh.goes (by simp [ht]) (by simp [ht]) (by simp) rfl rfl rfl (.inl hk) (by simp [hn])
        (by simp [TargetPlace.AfterPrepost]) (by simp [TargetPlace.Over])
        fun _ => .inl (h.ctx.mp hc)
    · exact hh.goes (by simp [ht]) (by simp [ht]) (by simp) rfl rfl rfl (.inl hk) (by simp [hn])
        (by simp [TargetPlace.AfterPrepost]) (fun _ => .inr ⟨hn, fun hr => hc (h.ctx.mpr hr)⟩)
        (by simp)
  case terminate =>
    simp only [targetStep, ht]
    exact hh.goes (by simp [ht]) (by simp [ht]) (by simp) rfl rfl rfl (.inr (.inr rfl))
      (by simp [TargetPlace.Alone]) (by simp [TargetPlace.AfterPrepost])
      (fun _ => hh.ended (.inl ht)) (by simp)

inductive JoinerMove (s s' : State Unit) : Prop where
  | ahead (was : (s.client ()).Before) (now : (s'.client ()).Before)
      (ctx : s'.mem.record.tlJoinCtx = s.mem.record.tlJoinCtx)
  | registers (was : (s.client ()).Before) (now : s'.client () = .readGate)
      (ctx : s'.mem.record.tlJoinCtx = some ())
  | loops (was : (s.client ()).Registered) (now : (s'.client ()).Registered)
      (ctx : s'.mem.record.tlJoinCtx = s.mem.record.tlJoinCtx)
  | leaves (was : (s.client ()).Registered) (now : s'.client () = .readCleansUp)
      (ctx : s'.mem.record.tlJoinCtx = none)
  | frees (was : (s.client ()).Freeing ∨
        s.client () = .readCleansUp ∧ s.mem.record.tlJoinerCleansUp = true)
      (now : (s'.client ()).Freeing) (ctx : s'.mem.record.tlJoinCtx = s.mem.record.tlJoinCtx)
  | returns (was : (∃ a n, s.client () = .unmap a n) ∨
        s.client () = .readCleansUp ∧ s.mem.record.tlJoinerCleansUp = false)
      (now : s'.client () = .returned 0)
      (ctx : s'.mem.record.tlJoinCtx = s.mem.record.tlJoinCtx)

structure JoinerFrame (s s' : State Unit) : Prop where
  target : s'.target = s.target
  locals : s'.locals = s.locals
  joinable : s'.mem.record.tlJoinable = s.mem.record.tlJoinable
  cleansUp : s'.mem.record.tlJoinerCleansUp = s.mem.record.tlJoinerCleansUp
  detached : (s'.mem.ctx ()).detached = (s.mem.ctx ()).detached
  detaching : s'.detaching = s.detaching

theorem joinerRun_move {cfg : Config} {s : State Unit} (hmain : cfg.isMain = false)
    (h : JoinerInvariant s) (hr : (s.client ()).runs = true) :
    JoinerFrame s (clientStep cfg s ()) ∧ JoinerMove s (clientStep cfg s ()) := by
  have hgate := h.gate
  have hatt := h.attached
  have hplaces := h.places
  have hdet : s.detaching () = false := by
    refine h.joining fun hc => ?_
    rw [hc] at hr
    cases hr
  have hfinish : ∀ (m : Shared Unit) res,
      (({ s with mem := m } : State Unit).finish () res).client () = .returned res := by
    intro m res
    simp [hdet]
  unfold clientStep
  cases hc : s.client () <;> rw [hc] at hr hatt hplaces <;> dsimp only
  case idle | wait | asleep | wake | returned | fault => cases hr
  case joinTestJoinable | joinTestCtx =>
    split_ifs
    all_goals
      refine ⟨⟨rfl, rfl, rfl, rfl, rfl, rfl⟩, .ahead ?_ ?_ rfl⟩
      all_goals simp [hc, hdet, ClientPlace.Before]
  case joinTestSelf | storeGate =>
    refine ⟨⟨rfl, rfl, rfl, rfl, rfl, rfl⟩, .ahead ?_ ?_ rfl⟩
    all_goals simp [hc, ClientPlace.Before]
  case joinTestGate =>
    rw [if_neg hgate]
    refine ⟨⟨rfl, rfl, rfl, rfl, rfl, rfl⟩, .ahead ?_ ?_ rfl⟩
    all_goals simp [hc, ClientPlace.Before]
  case storeCtx =>
    refine ⟨⟨rfl, rfl, rfl, rfl, rfl, rfl⟩, .registers ?_ (State.go_self _ _ _) rfl⟩
    simp [hc, ClientPlace.Before]
  case readGate =>
    rw [if_neg hgate]
    refine ⟨⟨rfl, rfl, rfl, rfl, rfl, rfl⟩, .loops ?_ ?_ rfl⟩
    · simp [hc, ClientPlace.Registered]
    · rw [State.go_self]
      split_ifs <;> simp [ClientPlace.Registered]
  case testDetached =>
    rw [hatt (by simp), if_neg (by decide)]
    refine ⟨⟨rfl, rfl, rfl, rfl, rfl, rfl⟩, .loops ?_ ?_ rfl⟩
    all_goals simp [hc, ClientPlace.Registered]
  case clearCtx =>
    refine ⟨⟨rfl, rfl, rfl, rfl, rfl, rfl⟩, .leaves ?_ (State.go_self _ _ _) rfl⟩
    simp [hc, ClientPlace.Registered]
  case readCleansUp =>
    split_ifs with hset
    · refine ⟨⟨rfl, rfl, rfl, rfl, rfl, rfl⟩, .frees (.inr ⟨hc, hset⟩) ?_ rfl⟩
      simp [ClientPlace.Freeing]
    · have hclear := Bool.eq_false_iff.mpr hset
      exact ⟨⟨rfl, rfl, rfl, rfl, rfl, rfl⟩, .returns (.inr ⟨hc, hclear⟩) (hfinish _ 0) rfl⟩
  case deallocate =>
    rw [hmain, if_neg (by decide)]
    refine ⟨⟨rfl, rfl, rfl, rfl, rfl, rfl⟩, .frees (.inl ?_) ?_ rfl⟩
    all_goals simp [hc, ClientPlace.Freeing]
  case unmap a n =>
    exact ⟨⟨rfl, rfl, rfl, rfl, rfl, rfl⟩, .returns (.inl ⟨a, n, hc⟩) (hfinish _ 0) rfl⟩
  -- the places of a detach, and of a join that finds the target dead
  all_goals
    simp [ClientPlace.Before, ClientPlace.Registered, ClientPlace.Freeing] at hplaces

structure JoinerEffect (s s' : State Unit) : Prop where
  target : s'.target = s.target
  locals : s'.locals = s.locals
  joinable : s'.mem.record.tlJoinable = s.mem.record.tlJoinable
  cleansUp : s'.mem.record.tlJoinerCleansUp = s.mem.record.tlJoinerCleansUp
  before : (s'.client ()).Before → (s.client ()).Before
  registered : (s'.client ()).Registered → (s.client ()).Registered ∨ (s.client ()).Before
  leaving : (s.client ()).Registered → (s'.client ()).Registered ∨ s'.client () = .readCleansUp
  freeing : (s'.client ()).Freeing →
    (s.client ()).Freeing ∨ s.mem.record.tlJoinerCleansUp = true
  returned : s'.client () = .returned 0 → (∃ a n, s.client () = .unmap a n) ∨
    s.client () = .readCleansUp ∧ s.mem.record.tlJoinerCleansUp = false

/-- Before it frees the record the joiner has left the list. -/
theorem not_registered_of_freeing {s : State Unit}
    (h : (s.client ()).Freeing ∨ s.client () = .readCleansUp) : ¬ (s.client ()).Registered := by
  rcases h with h | h
  · exact h.not_other.2.1
  · rw [h]
    exact readCleansUp_not_other.2.1

theorem JoinerMove.effect {s s' : State Unit} (hm : JoinerMove s s') (hf : JoinerFrame s s') :
    JoinerEffect s s' := by
  refine ⟨hf.target, hf.locals, hf.joinable, hf.cleansUp, ?_, ?_, ?_, ?_, ?_⟩
  · -- only a joiner before its registration is before it afterwards
    intro hs
    cases hm with
    | ahead was _ _ => exact was
    | registers was _ _ => exact was
    | loops _ now _ => exact absurd hs now.not_other.1
    | leaves _ now _ => exact absurd (now ▸ hs) readCleansUp_not_other.1
    | frees _ now _ => exact absurd hs now.not_other.1
    | returns _ now _ => exact absurd (now ▸ hs) returned_not_other.1
  · intro hs
    cases hm with
    | ahead was _ _ => exact .inr was
    | registers was _ _ => exact .inr was
    | loops was _ _ => exact .inl was
    | leaves was _ _ => exact .inl was
    | frees _ now _ => exact absurd hs now.not_other.2.1
    | returns _ now _ => exact absurd (now ▸ hs) returned_not_other.2.1
  · intro hs
    cases hm with
    | ahead was _ _ => exact absurd hs was.not_other.1
    | registers was _ _ => exact absurd hs was.not_other.1
    | loops _ now _ => exact .inl now
    | leaves _ now _ => exact .inr now
    | frees was _ _ => exact absurd hs (not_registered_of_freeing (was.imp_right And.left))
    | returns was _ _ =>
      exact absurd hs (not_registered_of_freeing (was.imp .inr And.left))
  · intro hs
    cases hm with
    | ahead _ now _ => exact absurd hs now.not_other.2.1
    | registers _ now _ => exact absurd hs (ClientPlace.Registered.not_other (.inl now)).2.1
    | loops _ now _ => exact absurd hs now.not_other.2.1
    | leaves _ now _ => exact absurd (now ▸ hs) readCleansUp_not_other.2.2
    | frees was _ _ => exact was.imp_right And.right
    | returns _ now _ => exact absurd (now ▸ hs) returned_not_other.2.2
  · intro hs
    cases hm with
    | ahead _ now _ => exact absurd hs now.not_other.2.2
    | registers _ now _ => exact absurd hs (ClientPlace.Registered.not_other (.inl now)).2.2
    | loops _ now _ => exact absurd hs now.not_other.2.2
    | leaves _ now _ =>
      rw [now] at hs
      cases hs
    | frees _ now _ => exact absurd hs now.not_other.2.2
    | returns was _ _ => exact was

theorem JoinerMove.invariant {s s' : State Unit} (hm : JoinerMove s s') (hf : JoinerFrame s s')
    (h : JoinerInvariant s) (hidle : s.client () ≠ .idle)
    (hgate : s'.mem.record.tlExitGate ≠ machPortDead) : JoinerInvariant s' := by
  have hsame : s'.mem.record.tlJoinCtx = s.mem.record.tlJoinCtx →
      ((s'.client ()).Registered ↔ (s.client ()).Registered) →
      (s'.mem.record.tlJoinCtx.isSome = true ↔ (s'.client ()).Registered) := by
    intro hctx hr
    rw [hctx, hr]
    exact h.ctx
  refine ⟨fun _ => ?_, fun _ => ?_, hgate, ?_, ?_⟩
  · rw [hf.detached]
    exact h.attached hidle
  · rw [hf.detaching]
    exact h.joining hidle
  · cases hm with
    | ahead _ now _ => exact .inl now
    | registers _ now _ => exact .inr (.inl (.inl now))
    | loops _ now _ => exact .inr (.inl now)
    | leaves _ now _ => exact .inr (.inr (.inl now))
    | frees _ now _ => exact .inr (.inr (.inr (.inl now)))
    | returns _ now _ => exact .inr (.inr (.inr (.inr now)))
  · cases hm with
    | ahead was now ctx => exact hsame ctx (iff_of_false now.not_other.1 was.not_other.1)
    | registers _ now ctx =>
      rw [ctx]
      exact iff_of_true rfl (.inl now)
    | loops was now ctx => exact hsame ctx (iff_of_true now was)
    | leaves _ now ctx =>
      rw [ctx, now]
      exact iff_of_false (by decide) readCleansUp_not_other.2.1
    | frees was now ctx =>
      exact hsame ctx (iff_of_false now.not_other.2.1
        (not_registered_of_freeing (was.imp_right And.left)))
    | returns was now ctx =>
      refine hsame ctx (iff_of_false (now ▸ returned_not_other.2.1) ?_)
      exact not_registered_of_freeing (was.imp .inr And.left)

theorem JoinerInvariant.run {cfg : Config} {s : State Unit} (h : JoinerInvariant s)
    (hr : (s.client ()).runs = true) (hf : JoinerFrame s (clientStep cfg s ()))
    (hm : JoinerMove s (clientStep cfg s ())) : JoinerInvariant (clientStep cfg s ()) := by
  refine hm.invariant hf h (fun hc => ?_) ?_
  · rw [hc] at hr
    cases hr
  · rcases clientStep_gate cfg s () with hg | hg
    · rw [hg]
      exact cfg.port_ne_dead
    · rw [hg]
      exact h.gate

theorem HandoffInvariant.joiner {s s' : State Unit} (h : HandoffInvariant s)
    (he : JoinerEffect s s') (hg : s.client () = .readCleansUp → Committed s) :
    HandoffInvariant s' := by
  have hseen : Seen s' ↔ Seen s := by simp only [Seen, he.target, he.locals]
  constructor
  · rw [he.target, he.locals, he.joinable]
    exact h.alone
  · rw [he.target, he.locals, he.joinable]
    exact h.preposted
  · rw [he.cleansUp, he.locals]
    exact h.keep
  · rw [he.target, he.locals]
    exact h.kept
  · intro hs hb
    exact h.seen (hseen.mp hs) (he.before hb)
  · rw [he.target, he.locals]
    intro ho
    refine (h.ended ho).imp_right fun hn => ⟨hn.1, fun hr => ?_⟩
    exact (he.registered hr).elim hn.2 (h.seen (.inr hn.1))
  · rw [he.target]
    intro hk
    rcases h.keeping hk with hr | hc
    · exact he.leaving hr
    · -- between the two accesses of the target the joiner does not decide
      rcases hg hc with hset | ⟨-, hne, -⟩
      · have hover := h.kept (h.keep ▸ hset)
        simp [hk, TargetPlace.Over] at hover
      · exact absurd hk hne
  · rw [he.cleansUp]
    intro hf
    exact (he.freeing hf).elim h.freeing id
  · rw [he.cleansUp, he.target, hseen]
    intro hr
    rcases he.returned hr with hf | ⟨hc, _⟩
    · exact .inl (h.freeing (.inr hf))
    · exact (hg hc).imp_right fun hs => .inl hs.1

theorem joinerMoves_effect {s s' : State Unit} (ht : s'.target = s.target)
    (hl : s'.locals = s.locals) (hr : s'.mem.record = s.mem.record)
    (hq : (s.client ()).Registered ∧ (s'.client ()).Registered ∨
      (s.client ()).Before ∧ (s'.client ()).Before) : JoinerEffect s s' := by
  rcases hq with ⟨hc, hq⟩ | ⟨hc, hq⟩
  · obtain ⟨hb, hf, h0⟩ := hq.not_other
    exact ⟨ht, hl, by rw [hr], by rw [hr], fun h => absurd h hb, fun _ => .inl hc,
      fun _ => .inl hq, fun h => absurd h hf, fun h => absurd h h0⟩
  · obtain ⟨hb, hf, h0⟩ := hq.not_other
    exact ⟨ht, hl, by rw [hr], by rw [hr], fun _ => hc, fun h => absurd h hb,
      fun h => absurd h hc.not_other.1, fun h => absurd h hf, fun h => absurd h h0⟩

structure SameRanges (m m' : Shared Unit) : Prop where
  freeaddr : m'.record.freeaddr = m.record.freeaddr
  freesize : m'.record.freesize = m.record.freesize
  released : m'.released = m.released

theorem prepost_ranges (cfg : Config) (m : Shared Unit) (p : Prepost Unit) :
    SameRanges m (prepostStep cfg m p).1 := by
  cases p with
  | loadCtx => simp only [prepostStep]; split <;> exact ⟨rfl, rfl, rfl⟩
  | copyValue c => simp only [prepostStep]; split <;> exact ⟨rfl, rfl, rfl⟩
  | _ => exact ⟨rfl, rfl, rfl⟩

theorem clientStep_ranges (cfg : Config) {s : State Unit}
    (h : ∀ a n, s.client () ≠ .unmap a n) : SameRanges s.mem (clientStep cfg s ()).mem := by
  unfold clientStep
  cases hc : s.client () <;> dsimp only
  case unmap a n => exact absurd hc (h a n)
  case prepost p =>
    have hr := prepost_ranges cfg s.mem p
    generalize prepostStep cfg s.mem p = r at hr
    obtain ⟨m, _ | _ | _⟩ := r <;> exact hr
  all_goals first | exact ⟨rfl, rfl, rfl⟩ | (split_ifs <;> exact ⟨rfl, rfl, rfl⟩)

theorem targetStep_ranges (cfg : Config) {s : State Unit} (hs : s.target ≠ .split)
    (ht : s.target ≠ .terminate) :
    SameRanges s.mem (targetStep cfg s).mem ∧
      (targetStep cfg s).locals.freeaddr = s.locals.freeaddr ∧
      (targetStep cfg s).locals.freesize = s.locals.freesize ∧
      (targetStep cfg s).locals.freesizeStack = s.locals.freesizeStack := by
  unfold targetStep
  cases hp : s.target <;> dsimp only
  case split => exact absurd hp hs
  case terminate => exact absurd hp ht
  case prepost p =>
    have hr := prepost_ranges cfg s.mem p
    generalize prepostStep cfg s.mem p = r at hr
    obtain ⟨m, _ | _ | _⟩ := r <;> exact ⟨hr, rfl, rfl, rfl⟩
  all_goals exact ⟨⟨rfl, rfl, rfl⟩, rfl, rfl, rfl⟩

/-- The ranges that `z_pthread_terminate` may free: all of the mapping, or what is below the
page of the record. -/
structure RangesAt (cfg : Config) (l : Locals) : Prop where
  whole : Covers cfg l.freeaddr l.freesize
  stack : ¬ Covers cfg l.freeaddr l.freesizeStack

theorem enterTerminate_ranges {cfg : Config} {r : Record Unit} (hmain : cfg.isMain = false)
    (h : Covers cfg r.freeaddr r.freesize) :
    RangesAt cfg (enterTerminate cfg r).1 ∧
      Covers cfg (enterTerminate cfg r).2.freeaddr (enterTerminate cfg r).2.freesize := by
  obtain ⟨hlo, hhi⟩ := h
  have htrunc : truncPage cfg (cfg.self - r.freeaddr) ≤ cfg.self - r.freeaddr := Nat.sub_le _ _
  unfold enterTerminate
  rw [if_neg (by simp [hmain] : ¬ cfg.isMain = true)]
  split_ifs with hsplit
  · refine ⟨⟨⟨hlo, hhi⟩, ?_⟩, ?_, ?_⟩
    · intro hc
      have := hc.2
      dsimp only at this
      omega
    · dsimp only
      omega
    · dsimp only
      omega
  · exact ⟨⟨⟨hlo, hhi⟩, fun hc => absurd hc.2 (by dsimp only; omega)⟩, hlo, hhi⟩

theorem terminateRange_covers {cfg : Config} {l : Locals} (hmain : cfg.isMain = false)
    (h : RangesAt cfg l) :
    Covers cfg (terminateRange cfg l).1 (terminateRange cfg l).2 ↔ l.keepThreadStruct = false := by
  have hw := h.whole
  have hs := h.stack
  unfold terminateRange
  cases hk : l.keepThreadStruct
  · simp only [hmain, Bool.or_self, Bool.false_eq_true, if_false, Covers] at hw ⊢
    rw [if_neg (by omega)]
    simpa using hw
  · simp only [Bool.true_or, if_true, Bool.true_eq_false, iff_false, Covers] at hs ⊢
    split_ifs <;> omega

def FreedByTarget (s : State Unit) : Prop :=
  s.target = .done ∧ s.locals.keepThreadStruct = false

def FreedByJoiner (s : State Unit) : Prop :=
  s.client () = .returned 0 ∧ s.mem.record.tlJoinerCleansUp = true

instance (s : State Unit) : Decidable (FreedByTarget s) :=
  inferInstanceAs (Decidable (s.target = .done ∧ s.locals.keepThreadStruct = false))

instance (s : State Unit) : Decidable (FreedByJoiner s) :=
  inferInstanceAs (Decidable (s.client () = .returned 0 ∧ s.mem.record.tlJoinerCleansUp = true))

structure ReleaseInvariant (cfg : Config) (s : State Unit) : Prop where
  record : Covers cfg s.mem.record.freeaddr s.mem.record.freesize
  locals : s.target ≠ .running → s.target ≠ .split → RangesAt cfg s.locals
  unmap : ∀ a n, s.client () = .unmap a n → Covers cfg a n
  count : releases cfg s = (if FreedByTarget s then 1 else 0) + if FreedByJoiner s then 1 else 0

theorem releases_release (cfg : Config) (m : Shared Unit) (addr size : ℕ) :
    (m.release addr size).released.countP (fun r => Covers cfg r.1 r.2) =
      m.released.countP (fun r => Covers cfg r.1 r.2) + if Covers cfg addr size then 1 else 0 := by
  simp [Shared.release, List.countP_append, List.countP_singleton]

theorem SameRanges.releases {cfg : Config} {s s' : State Unit} (h : SameRanges s.mem s'.mem) :
    releases cfg s' = releases cfg s := by
  rw [ThreadJoin.releases, h.released, ThreadJoin.releases]

theorem ReleaseInvariant.joiner {cfg : Config} {s s' : State Unit} (h : ReleaseInvariant cfg s)
    (he : JoinerEffect s s') (hr : SameRanges s.mem s'.mem) (hc : s.client () ≠ .returned 0)
    (hu : ∀ a n, s.client () ≠ .unmap a n)
    (hun : ∀ a n, s'.client () = .unmap a n → Covers cfg a n) : ReleaseInvariant cfg s' := by
  have hbefore : ¬ FreedByJoiner s := fun hf => hc hf.1
  have hafter : ¬ FreedByJoiner s' := by
    rintro ⟨h0, hcl⟩
    rw [he.cleansUp] at hcl
    rcases he.returned h0 with ⟨a, n, hf⟩ | ⟨_, hf⟩
    · exact hu a n hf
    · rw [hf] at hcl
      cases hcl
  refine ⟨?_, ?_, hun, ?_⟩
  · rw [hr.freeaddr, hr.freesize]
    exact h.record
  · rw [he.target, he.locals]
    exact h.locals
  · have ht : FreedByTarget s' ↔ FreedByTarget s := by
      unfold FreedByTarget
      rw [he.target, he.locals]
    rw [hr.releases, h.count, if_neg hbefore, if_neg hafter]
    simp only [ht]

theorem ReleaseInvariant.unmapStep {cfg : Config} {s : State Unit} {a n : ℕ}
    (h : ReleaseInvariant cfg s) (hh : HandoffInvariant s) (hc : s.client () = .unmap a n) :
    ReleaseInvariant cfg (clientStep cfg s ()) := by
  have hstep : clientStep cfg s () =
      ({ s with mem := s.mem.release a n } : State Unit).finish () 0 := by
    simp only [clientStep, hc]
  have hbefore : ¬ FreedByJoiner s := by simp [FreedByJoiner, hc]
  rw [hstep]
  refine ⟨h.record, h.locals, by simp, ?_⟩
  have hafter : FreedByJoiner (({ s with mem := s.mem.release a n } : State Unit).finish () 0) :=
    ⟨by simp, hh.freeing (.inr ⟨a, n, hc⟩)⟩
  have hcount := h.count
  rw [if_neg hbefore] at hcount
  rw [if_pos hafter, releases, State.finish_mem, releases_release, if_pos (h.unmap a n hc)]
  exact congrArg (· + 1) hcount

/-- Once the joiner has returned 0 the target no longer changes the decision. -/
theorem HandoffInvariant.settled {s : State Unit} (h : HandoffInvariant s)
    (hc : s.client () = .returned 0) : s.target ≠ .setKeep ∧ s.target ≠ .setKeepAfterWake := by
  constructor
  · intro ht
    have hn := h.not_waking (by simp [ht, TargetPlace.AfterPrepost])
    rcases h.joined hc with hcl | hs | hf
    · rw [h.keep] at hcl
      have ho := h.kept hcl
      simp [ht, TargetPlace.Over] at ho
    · simp [Seen, ht, hn] at hs
    · rw [ht] at hf
      cases hf
  · intro ht
    rcases h.keeping ht with hr | hr
    · exact hr.not_other.2.2 hc
    · rw [hc] at hr
      cases hr

theorem targetStep_cleansUp (cfg : Config) {s : State Unit} (h1 : s.target ≠ .setKeep)
    (h2 : s.target ≠ .setKeepAfterWake) :
    (targetStep cfg s).mem.record.tlJoinerCleansUp = s.mem.record.tlJoinerCleansUp := by
  unfold targetStep
  cases ht : s.target <;> dsimp only
  case setKeep => exact absurd ht h1
  case setKeepAfterWake => exact absurd ht h2
  case split => exact (enterTerminate_fields cfg s.mem.record).2.2.2
  case prepost p =>
    have hp : (prepostStep cfg s.mem p).1.record.tlJoinerCleansUp =
        s.mem.record.tlJoinerCleansUp := by
      cases p with
      | loadCtx => simp only [prepostStep]; split <;> rfl
      | copyValue c => simp only [prepostStep]; split <;> rfl
      | _ => rfl
    generalize prepostStep cfg s.mem p = r at hp
    obtain ⟨m, _ | _ | _⟩ := r <;> exact hp
  all_goals rfl

theorem HandoffInvariant.freedByJoiner {cfg : Config} {s : State Unit}
    (h : HandoffInvariant s) : FreedByJoiner (targetStep cfg s) ↔ FreedByJoiner s := by
  unfold FreedByJoiner
  rw [targetStep_client]
  refine and_congr_right fun hc => ?_
  obtain ⟨h1, h2⟩ := h.settled hc
  rw [targetStep_cleansUp cfg h1 h2]

theorem targetStep_not_done (cfg : Config) {s : State Unit} (ht : s.target ≠ .terminate)
    (hd : s.target ≠ .done) : (targetStep cfg s).target ≠ .done := by
  unfold targetStep
  cases hp : s.target <;> dsimp only
  case terminate => exact absurd hp ht
  case done => exact absurd hp hd
  case prepost p =>
    generalize prepostStep cfg s.mem p = r
    obtain ⟨m, _ | _ | _⟩ := r <;> simp
  case testCtx | retestCtx => split_ifs <;> simp
  case testJoinable | setKeep =>
    unfold afterList
    split_ifs <;> simp
  all_goals simp [hp]

theorem ReleaseInvariant.targetRun {cfg : Config} {s : State Unit} (hmain : cfg.isMain = false)
    (h : ReleaseInvariant cfg s) (hh : HandoffInvariant s) (he : s.target.runs = true) :
    ReleaseInvariant cfg (targetStep cfg s) := by
  have hunmap : ∀ a n, (targetStep cfg s).client () = .unmap a n → Covers cfg a n := by
    rw [targetStep_client]
    exact h.unmap
  have hnd : s.target ≠ .done := by
    intro hd
    rw [hd] at he
    cases he
  have hcount := h.count
  rw [if_neg fun hf => hnd hf.1, Nat.zero_add] at hcount
  by_cases hterm : s.target = .terminate
  · have hr := h.locals (by simp [hterm]) (by simp [hterm])
    have hcov := terminateRange_covers hmain hr
    have hstep : targetStep cfg s = { s with
        mem := s.mem.release (terminateRange cfg s.locals).1 (terminateRange cfg s.locals).2
        target := .done } := by
      simp only [targetStep, hterm]
    refine ⟨?_, fun _ _ => ?_, hunmap, ?_⟩
    · rw [hstep]
      exact h.record
    · rw [hstep]
      exact hr
    · have ht : FreedByTarget (targetStep cfg s) ↔ s.locals.keepThreadStruct = false := by
        rw [hstep]
        simp [FreedByTarget]
      simp only [ht, hh.freedByJoiner]
      rw [releases, hstep, releases_release, Nat.add_comm]
      simp only [hcov]
      exact congrArg _ hcount
  · have hdone := targetStep_not_done cfg hterm hnd
    by_cases hsplit : s.target = .split
    · obtain ⟨hl, hrec⟩ := enterTerminate_ranges hmain h.record
      have hstep : targetStep cfg s = { s with
          locals := (enterTerminate cfg s.mem.record).1
          mem := { s.mem with record := (enterTerminate cfg s.mem.record).2 }
          target := .storeGate } := by
        simp only [targetStep, hsplit]
      refine ⟨?_, fun _ _ => ?_, hunmap, ?_⟩
      · rw [hstep]
        exact hrec
      · rw [hstep]
        exact hl
      · rw [if_neg fun hf => hdone hf.1, Nat.zero_add]
        simp only [hh.freedByJoiner]
        rw [releases, hstep]
        exact hcount
    · obtain ⟨hr, h1, h2, h3⟩ := targetStep_ranges cfg hsplit hterm
      refine ⟨?_, fun hrun hspl => ?_, hunmap, ?_⟩
      · rw [hr.freeaddr, hr.freesize]
        exact h.record
      · have hnr : s.target ≠ .running := by
          intro hr
          simp [targetStep, hr] at hspl
        have hl := h.locals hnr hsplit
        exact ⟨by rw [h1, h2]; exact hl.whole, by rw [h1, h3]; exact hl.stack⟩
      · rw [if_neg fun hf => hdone hf.1, Nat.zero_add, hr.releases, hcount]
        simp only [hh.freedByJoiner]

structure OneJoinInvariant (cfg : Config) (s : State Unit) : Prop where
  joiner : JoinerInvariant s
  handoff : HandoffInvariant s
  release : ReleaseInvariant cfg s

theorem OneJoinInvariant.moves {cfg : Config} {s s' : State Unit} (h : OneJoinInvariant cfg s)
    (ht : s'.target = s.target) (hl : s'.locals = s.locals)
    (hr : s'.mem.record = s.mem.record) (hm : s'.mem.released = s.mem.released)
    (hd : (s'.mem.ctx ()).detached = false) (hj : s'.detaching () = false)
    (hq : (s.client ()).Registered ∧ (s'.client ()).Registered ∨
      (s.client ()).Before ∧ (s'.client ()).Before) : OneJoinInvariant cfg s' := by
  have he := joinerMoves_effect ht hl hr hq
  have hc : ¬ (s.client ()).Freeing ∧ s.client () ≠ .returned 0 ∧
      s.client () ≠ .readCleansUp ∧ ¬ (s'.client ()).Freeing := by
    rcases hq with ⟨hc, hc'⟩ | ⟨hc, hc'⟩
    · exact ⟨hc.not_other.2.1, hc.not_other.2.2,
        fun h => readCleansUp_not_other.2.1 (h ▸ hc), hc'.not_other.2.1⟩
    · exact ⟨hc.not_other.2.1, hc.not_other.2.2, fun h => readCleansUp_not_other.1 (h ▸ hc),
        hc'.not_other.2.1⟩
  refine ⟨⟨fun _ => hd, fun _ => hj, by rw [hr]; exact h.joiner.gate, ?_, ?_⟩,
    h.handoff.joiner he ?_,
    h.release.joiner he ⟨by rw [hr], by rw [hr], hm⟩ hc.2.1 ?_ ?_⟩
  · rcases hq with ⟨_, hq⟩ | ⟨_, hq⟩
    · exact .inr (.inl hq)
    · exact .inl hq
  · rw [hr, h.joiner.ctx]
    rcases hq with ⟨hc, hq⟩ | ⟨hc, hq⟩
    · exact iff_of_true hc hq
    · exact iff_of_false hc.not_other.1 hq.not_other.1
  · intro h
    exact absurd h hc.2.2.1
  · intro a n hu
    exact hc.1 (.inr ⟨a, n, hu⟩)
  · intro a n hu
    exact absurd (.inr ⟨a, n, hu⟩) hc.2.2.2

theorem clientStep_unmap {cfg : Config} {s : State Unit} {a n : ℕ}
    (hr : (s.client ()).runs = true) (h : (clientStep cfg s ()).client () = .unmap a n) :
    a = s.mem.record.freeaddr ∧ n = s.mem.record.freesize := by
  unfold clientStep at h
  cases hc : s.client () <;> rw [hc] at hr h <;> dsimp only at h
  case idle | wait | asleep | wake | returned | fault => cases hr
  case prepost p =>
    generalize prepostStep cfg s.mem p = r at h
    obtain ⟨m, _ | _ | _⟩ := r <;> simp at h
  case deallocate =>
    split_ifs at h
    · simp at h
    · simpa [eq_comm] using h
  all_goals first | (simp at h; done) | (split_ifs at h <;> simp at h)

theorem OneJoinInvariant.run {cfg : Config} {s : State Unit} (hmain : cfg.isMain = false)
    (h : OneJoinInvariant cfg s) (hr : (s.client ()).runs = true)
    (hg : s.client () = .readCleansUp → Committed s) :
    OneJoinInvariant cfg (clientStep cfg s ()) := by
  obtain ⟨hf, hm⟩ := joinerRun_move hmain h.joiner hr
  have he := hm.effect hf
  refine ⟨h.joiner.run hr hf hm, h.handoff.joiner he hg, ?_⟩
  by_cases hu : ∃ a n, s.client () = .unmap a n
  · obtain ⟨a, n, hu⟩ := hu
    exact h.release.unmapStep h.handoff hu
  · have hu : ∀ a n, s.client () ≠ .unmap a n := fun a n hc => hu ⟨a, n, hc⟩
    refine h.release.joiner he (clientStep_ranges cfg hu) ?_ hu fun a n hc => ?_
    · intro hc
      rw [hc] at hr
      cases hr
    · obtain ⟨rfl, rfl⟩ := clientStep_unmap hr hc
      exact h.release.record

theorem OneJoinInvariant.retest {cfg : Config} {s : State Unit} (h : OneJoinInvariant cfg s)
    (ht : s.target = .wake) : OneJoinInvariant cfg { s with target := .retestCtx } := by
  have hh := h.handoff
  have hn : s.locals.needsWake = true := by
    by_contra hn
    have ha := hh.alone (by simpa using hn)
    simp [ht, TargetPlace.Alone] at ha
  obtain ⟨⟨j1, j2, j3, j4, j5⟩, -, r1, r2, r3, r4⟩ := h
  refine ⟨⟨j1, j2, j3, j4, j5⟩, ?_, r1, fun _ _ => r2 (by simp [ht]) (by simp [ht]), r3, ?_⟩
  · exact hh.goes (by simp [ht]) (by simp [ht]) (by simp) rfl rfl rfl
      (.inl (hh.not_kept (by simp [ht, TargetPlace.Over]))) (by simp [hn])
      (by simp [TargetPlace.AfterPrepost]) (by simp [TargetPlace.Over]) (by simp)
  · rw [if_neg fun hf => by simp [FreedByTarget, ht] at hf] at r4
    rw [if_neg fun hf => by simp [FreedByTarget] at hf]
    exact r4

theorem one_join_step {cfg : Config} {s : State Unit} {e : Event Unit} (hmain : cfg.isMain = false)
    (h : OneJoinInvariant cfg s) (he : Enabled cfg s e) (hg : handoffGuard s e) :
    OneJoinInvariant cfg (next cfg s e) := by
  obtain ⟨hone, hcommit⟩ := hg
  have stay : ∀ s' : State Unit, s'.target = s.target → s'.locals = s.locals → s'.mem = s.mem →
      s'.detaching = s.detaching → s.client () ≠ .idle →
      ((s.client ()).Registered ∧ (s'.client ()).Registered ∨
        (s.client ()).Before ∧ (s'.client ()).Before) → OneJoinInvariant cfg s' :=
    fun s' ht hl hm hd hc hq => h.moves ht hl (by rw [hm]) (by rw [hm])
      (by rw [hm]; exact h.joiner.attached hc) (by rw [hd]; exact h.joiner.joining hc) hq
  cases e with
  | startJoin i valuePtr =>
    refine h.moves rfl rfl rfl rfl ?_ ?_ (.inr ⟨.inl hone.2, ?_⟩)
    · simp [next, State.go, Shared.newCtx]
    · simp [next, State.go]
    · simp [next, ClientPlace.Before]
  | startDetach i => exact hone.elim
  | targetRun =>
    exact ⟨h.joiner.targetRun h.handoff, h.handoff.targetRun h.joiner,
      h.release.targetRun hmain h.handoff he⟩
  | targetWake woken =>
    obtain ⟨ht, hw⟩ := he
    have hwoken : OneJoinInvariant cfg (s.wake woken) := by
      cases woken with
      | none => exact h
      | some j =>
        have hw : s.client () = .asleep := hw
        refine stay _ rfl rfl rfl rfl (by simp [hw]) (.inl ⟨?_, ?_⟩)
        · simp [hw, ClientPlace.Registered]
        · simp [State.wake, ClientPlace.Registered]
    exact hwoken.retest (by cases woken <;> exact ht)
  | run i => exact h.run hmain he (hcommit rfl)
  | deadlock i =>
    have he : s.client () = .joinTestSelf := he
    have hj := h.joiner.joining (by simp [he])
    refine stay _ rfl rfl rfl rfl (by simp [he]) (.inr ⟨?_, ?_⟩)
    · simp [he, ClientPlace.Before]
    · simp [next, hj, ClientPlace.Before]
  | sleep i =>
    have he : s.client () = .wait := he.1
    refine stay _ rfl rfl rfl rfl (by simp [he]) (.inl ⟨?_, ?_⟩)
    · simp [he, ClientPlace.Registered]
    · simp [next, ClientPlace.Registered]
  | waitReturns i =>
    refine stay _ rfl rfl rfl rfl (by rcases he with hi | hi <;> simp [hi]) (.inl ⟨.inr ?_, ?_⟩)
    · exact he.elim .inl fun hi => .inr (.inl hi)
    · simp [next, ClientPlace.Registered]
  | wake i woken =>
    obtain ⟨res, he⟩ := waking_isSome he.1
    have hp := h.joiner.places
    rw [show s.client () = .wake res from he] at hp
    simp [ClientPlace.Before, ClientPlace.Registered, ClientPlace.Freeing] at hp

theorem one_join_initial {cfg : Config} {s : State Unit} (h : Initial s) (hm : Mapped cfg s) :
    OneJoinInvariant cfg s := by
  have hc := h.client ()
  have ht := h.target
  obtain ⟨hk, hn⟩ := h.locals
  have hb : (s.client ()).Before := .inl hc
  have hseen : ¬ Seen s := by simp [Seen, ht, hn]
  refine ⟨⟨fun hi => absurd hc hi, fun hi => absurd hc hi, by rw [h.gate]; decide, .inl hb, ?_⟩,
    ?_, ⟨⟨hm.freeaddr_le, hm.lt_end⟩, fun hr => absurd ht hr, by simp [hc], ?_⟩⟩
  · rw [h.joinCtx]
    exact iff_of_false (by simp) hb.not_other.1
  · refine ⟨fun _ => .inl ⟨.inl ht, hm.joinable⟩, by simp [hn], by rw [h.cleansUp, hk],
      by simp [hk], fun hs => absurd hs hseen, ?_, ?_, ?_, ?_⟩
    · simp [ht, TargetPlace.Over]
    · simp [ht]
    · intro hf
      exact absurd hf hb.not_other.2.1
    · simp [hc]
  · simp [releases, h.released, FreedByTarget, FreedByJoiner, ht, hc]

theorem one_join_inductive {cfg : Config} (hmain : cfg.isMain = false) :
    Inductive (handoffSystem cfg) handoffGuard (OneJoinInvariant cfg) where
  initial _ h := one_join_initial h.1 h.2
  step _ _ h he hg := one_join_step hmain h he hg

theorem OneJoinInvariant.not_accessed {cfg : Config} {s : State Unit} {e : Event Unit}
    (h : OneJoinInvariant cfg s) (he : Enabled cfg s e) (hg : handoffGuard s e)
    (hf : FreedByTarget s ∨ FreedByJoiner s) : ¬ Accesses s e := by
  obtain ⟨hone, hcommit⟩ := hg
  have hh := h.handoff
  rcases hf with ⟨hd, hk⟩ | ⟨h0, hcl⟩
  · have hover := (hh.ended (.inr hd)).resolve_left (by simp [hk])
    have hnot : (s.client ()).touches → (s.client ()).runs = true →
        s.client () = .readCleansUp := by
      intro _ hr
      rcases h.joiner.places with hb | hr' | hc | hf | h0
      · exact absurd hb (hh.seen (.inr hover.1))
      · exact absurd hr' hover.2
      · exact hc
      · have := hh.freeing hf
        rw [hh.keep, hk] at this
        cases this
      · rw [h0] at hr
        cases hr
    cases e with
    | targetRun => simp [Enabled, hd, TargetPlace.runs] at he
    | run i =>
      intro ha
      have hc := hnot ha he
      have := hcommit rfl hc
      simp [Committed, hd, hh.keep, hk] at this
    | sleep i => exact fun _ => hover.2 (.inr (.inl he.1))
    | waitReturns i => exact fun _ => hover.2 (.inr (he.imp id .inl))
    | _ => exact id
  · rw [hh.keep] at hcl
    cases e with
    | targetRun =>
      rcases hh.kept hcl with ht | ht
      · simp [Accesses, ht, TargetPlace.touches]
      · simp [Enabled, ht, TargetPlace.runs] at he
    | run i => simp [Enabled, h0, ClientPlace.runs] at he
    | sleep i => simp [Enabled, h0] at he
    | waitReturns i => simp [Enabled, h0] at he
    | _ => exact id

/-- Under the handshake the record is unmapped once, and nobody touches it afterwards. -/
theorem record_released_once {cfg : Config} {s : State Unit} (hmain : cfg.isMain = false)
    (h : ReachableUnder (handoffSystem cfg) handoffGuard s) :
    (s.client () = .returned 0 → s.target = .done → releases cfg s = 1) ∧
      ∀ e, Enabled cfg s e → handoffGuard s e → Accesses s e → releases cfg s = 0 := by
  have hi := (one_join_inductive hmain).reachable h
  constructor
  · intro hc ht
    rw [hi.release.count]
    cases hk : s.locals.keepThreadStruct
    · rw [if_pos ⟨ht, hk⟩, if_neg fun hf => by simp [FreedByJoiner, hi.handoff.keep, hk] at hf]
    · rw [if_neg fun hf => by simp [FreedByTarget, hk] at hf, if_pos ⟨hc, hi.handoff.keep.trans hk⟩]
  · intro e he hg ha
    have hn := mt (hi.not_accessed he hg) (not_not.mpr ha)
    rw [hi.release.count, if_neg fun hf => hn (.inl hf), if_neg fun hf => hn (.inr hf)]

instance (s : State Unit) : (e : Event Unit) → Decidable (oneJoin s e)
  | .startJoin _ _ => inferInstanceAs (Decidable (s.target = .running ∧ s.client () = .idle))
  | .startDetach _ => isFalse id
  | .targetRun | .targetWake _ | .run _ | .deadlock _ | .sleep _ | .waitReturns _ | .wake _ _ =>
    isTrue trivial

instance (s : State Unit) : Decidable (Seen s) :=
  match ht : s.target with
  | .prepost p => isTrue (.inl ⟨p, ht⟩)
  | .running | .split | .storeGate | .storeValue | .testCtx | .testJoinable | .setKeep | .wake
  | .retestCtx | .setKeepAfterWake | .terminate | .done | .fault =>
    decidable_of_iff (s.locals.needsWake = true) (by simp [Seen, ht])

instance (s : State Unit) (e : Event Unit) : Decidable (handoffGuard s e) :=
  inferInstanceAs (Decidable (oneJoin s e ∧ (e = .run () → s.client () = .readCleansUp →
    s.mem.record.tlJoinerCleansUp = true ∨
      Seen s ∧ s.target ≠ .setKeepAfterWake ∧ s.target ≠ .done)))

instance (cfg : Config) (s : State Unit) (e : Event Unit) :
    Decidable ((handoffSystem cfg).Enabled s e) := inferInstanceAs (Decidable (Enabled cfg s e))

theorem started_mapped : Mapped worker started := by constructor <;> decide

theorem record_released_by_joiner :
    let s := runTrace (handoffSystem worker) started
      ([.startJoin () true] ++ List.replicate 7 (.run ()) ++ [.sleep ()] ++
        List.replicate 10 .targetRun ++ [.targetWake (some ())] ++ List.replicate 2 .targetRun ++
        List.replicate 6 (.run ()) ++ [.targetRun])
    s.client () = .returned 0 ∧ s.target = .done ∧ releases worker s = 1 :=
  ⟨by decide, by decide, (record_released_once rfl (valid_trace_reachable
    (⟨started_initial, started_mapped⟩ : Initial started ∧ Mapped worker started)
    (by decide))).1 (by decide) (by decide)⟩

/-- The joiner finds the gate open, clears `tl_join_ctx` before the target looks for it, and
leaves the record to a target that keeps it for a joiner. -/
theorem early_joiner_leaks_record :
    ∃ s, ReachableUnder (handoffSystem worker) oneJoin s ∧ s.client () = .returned 0 ∧
      s.target = .done ∧ releases worker s = 0 :=
  ⟨runTrace (handoffSystem worker) started
      ([.startJoin () true] ++ List.replicate 6 (.run ()) ++ List.replicate 3 .targetRun ++
        List.replicate 4 (.run ()) ++ List.replicate 5 .targetRun),
    valid_trace_reachable
      (⟨started_initial, started_mapped⟩ : Initial started ∧ Mapped worker started) (by decide),
    by decide, by decide, by decide⟩

end ThreadJoin

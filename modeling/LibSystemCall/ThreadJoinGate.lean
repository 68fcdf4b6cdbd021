import LibSystemCall.ThreadJoin

/-! # A joiner asleep on the exit gate

The gate is 0 or the port of the target, and the target stores 0 when it exits: a joiner that
stores the port after that, or that nobody will wake, sleeps on a thread that is gone. -/
namespace ThreadJoin

open GuardedSystem

variable {ι : Type*}

def TargetPlace.GateUnstored (p : TargetPlace ι) : Prop :=
  p = .running ∨ p = .split ∨ p = .storeGate

def TargetPlace.Untested (p : TargetPlace ι) : Prop :=
  p.GateUnstored ∨ p = .storeValue ∨ p = .testCtx

/-- The target will call `z_ulock_wake`, or has faulted on its way there. -/
def WakePending (s : State ι) : Prop :=
  (∃ p, s.target = .prepost p) ∨ s.target = .fault ∨ s.target = .wake ∨
    (s.target = .testJoinable ∨ s.target = .setKeep) ∧ s.locals.needsWake = true

def ClientPlace.InLoop (p : ClientPlace ι) : Prop :=
  p = .readGate ∨ p = .wait ∨ p = .asleep

/-- Behind the loop, `tl_join_ctx` not yet cleared. -/
def ClientPlace.Leaving (p : ClientPlace ι) : Prop := p = .testDetached ∨ p = .clearCtx

def ClientPlace.Elsewhere (p : ClientPlace ι) : Prop :=
  p ≠ .storeCtx ∧ ¬ p.InLoop ∧ ¬ p.Leaving

/-- A joiner stores the gate only before the target does, registers only where nobody is
registered, and no detach unregisters a joiner that the target has not seen. -/
def gateGuard (s : State ι) : Event ι → Prop
  | .run i =>
    (s.client i = .storeGate → s.target.GateUnstored) ∧
    (s.client i = .storeCtx → s.mem.record.tlJoinCtx = none) ∧
    (∀ c, s.client i = .prepost (.unlink c) → ¬ s.target.Untested)
  | _ => True

structure GateInvariant (cfg : Config) (s : State ι) : Prop where
  gate : s.mem.record.tlExitGate = 0 ∨
    s.mem.record.tlExitGate = cfg.kport ∧ s.target.GateUnstored
  joined : ∀ i, s.target.GateUnstored → s.client i = .storeCtx ∨ (s.client i).InLoop →
    s.mem.record.tlExitGate = cfg.kport
  stays : ∀ i, s.target.GateUnstored → ¬ (s.client i).Leaving
  registered : ∀ i, s.target.GateUnstored → (s.client i).InLoop →
    s.mem.record.tlJoinCtx = some i
  sleeper : ∀ i, s.target.Untested → s.client i = .asleep → s.mem.record.tlJoinCtx = some i
  alone : ∀ i j, s.target.Untested → s.client i = .asleep →
    (s.client j).InLoop ∨ (s.client j).Leaving → j = i
  pending : ∀ i, s.client i = .asleep → ¬ s.target.Untested → WakePending s
  single : ∀ i j, s.client i = .asleep → s.client j = .asleep → i = j

structure TargetEffect (s s' : State ι) : Prop where
  client : s'.client = s.client
  unstored : s'.target.GateUnstored → s.target.GateUnstored ∧
    s'.mem.record.tlExitGate = s.mem.record.tlExitGate
  stored : ¬ s'.target.GateUnstored → s'.mem.record.tlExitGate = 0 ∨
    ¬ s.target.GateUnstored ∧ s'.mem.record.tlExitGate = s.mem.record.tlExitGate
  untested : s'.target.Untested → s.target.Untested ∧
    s'.mem.record.tlJoinCtx = s.mem.record.tlJoinCtx
  pending : ¬ s'.target.Untested →
    (s.target.Untested → s.mem.record.tlJoinCtx.isSome = true → WakePending s') ∧
    (¬ s.target.Untested → WakePending s → WakePending s')

theorem GateInvariant.target {cfg : Config} {s s' : State ι} (h : GateInvariant cfg s)
    (he : TargetEffect s s') : GateInvariant cfg s' := by
  have hasleep : ∀ i, s'.client i = .asleep → ¬ s'.target.Untested → WakePending s' := by
    intro i hi hun
    rw [he.client] at hi
    by_cases hs : s.target.Untested
    · exact (he.pending hun).1 hs (by rw [h.sleeper i hs hi]; rfl)
    · exact (he.pending hun).2 hs (h.pending i hi hs)
  refine ⟨?_, fun i hu hi => ?_, fun i hu => ?_, fun i hu hi => ?_, fun i hu hi => ?_,
    fun i j hu hi hj => ?_, hasleep, ?_⟩
  · by_cases hu : s'.target.GateUnstored
    · rw [(he.unstored hu).2]
      exact h.gate.imp_right fun hg => ⟨hg.1, hu⟩
    · rcases he.stored hu with hg | ⟨hs, hg⟩
      · exact .inl hg
      · rw [hg]
        exact .inl (h.gate.resolve_right fun hp => hs hp.2)
  · rw [he.client] at hi
    obtain ⟨hs, hg⟩ := he.unstored hu
    exact hg.trans (h.joined i hs hi)
  · rw [he.client]
    exact h.stays i (he.unstored hu).1
  · rw [he.client] at hi
    obtain ⟨_, hc⟩ := he.untested (.inl hu)
    exact hc.trans (h.registered i (he.unstored hu).1 hi)
  · rw [he.client] at hi
    obtain ⟨hs, hc⟩ := he.untested hu
    exact hc.trans (h.sleeper i hs hi)
  · rw [he.client] at hi hj
    exact h.alone i j (he.untested hu).1 hi hj
  · rw [he.client]
    exact h.single

theorem tested_effect {s s' : State ι} (hc : s'.client = s.client)
    (hg : s'.mem.record.tlExitGate = s.mem.record.tlExitGate) (hs : ¬ s.target.Untested)
    (hs' : ¬ s'.target.Untested) (hp : WakePending s → WakePending s') : TargetEffect s s' where
  client := hc
  unstored hu := absurd (.inl hu) hs'
  stored _ := .inr ⟨fun hu => hs (.inl hu), hg⟩
  untested hu := absurd hu hs'
  pending _ := ⟨fun hu => absurd hu hs, fun _ => hp⟩

theorem untested_effect {s s' : State ι} (hc : s'.client = s.client)
    (hctx : s'.mem.record.tlJoinCtx = s.mem.record.tlJoinCtx) (hs : s.target.Untested)
    (hs' : s'.target.Untested)
    (hu : s'.target.GateUnstored → s.target.GateUnstored ∧
      s'.mem.record.tlExitGate = s.mem.record.tlExitGate)
    (hst : ¬ s'.target.GateUnstored → s'.mem.record.tlExitGate = 0 ∨
      ¬ s.target.GateUnstored ∧ s'.mem.record.tlExitGate = s.mem.record.tlExitGate) :
    TargetEffect s s' where
  client := hc
  unstored := hu
  stored := hst
  untested _ := ⟨hs, hctx⟩
  pending hn := absurd hs' hn

theorem GateInvariant.retest {cfg : Config} {s : State ι} (h : GateInvariant cfg s)
    (ht : s.target = .wake) (hn : ∀ i, s.client i ≠ .asleep) :
    GateInvariant cfg { s with target := .retestCtx } := by
  have hu : ¬ (.retestCtx : TargetPlace ι).GateUnstored := by simp [TargetPlace.GateUnstored]
  have hun : ¬ (.retestCtx : TargetPlace ι).Untested := by
    simp [TargetPlace.Untested, TargetPlace.GateUnstored]
  have hgate : s.mem.record.tlExitGate = 0 := by
    refine h.gate.resolve_right fun hp => ?_
    simp [ht, TargetPlace.GateUnstored] at hp
  exact ⟨.inl hgate, fun _ hs => absurd hs hu, fun _ hs => absurd hs hu, fun _ hs => absurd hs hu,
    fun _ hs => absurd hs hun, fun _ _ hs => absurd hs hun, fun i hi => absurd hi (hn i),
    fun i _ hi => absurd hi (hn i)⟩

theorem elsewhere_of_ne {q : ClientPlace ι} (h1 : q ≠ .storeCtx) (h2 : q ≠ .readGate)
    (h3 : q ≠ .wait) (h4 : q ≠ .asleep) (h5 : q ≠ .testDetached) (h6 : q ≠ .clearCtx) :
    q.Elsewhere := by
  simp [ClientPlace.Elsewhere, ClientPlace.InLoop, ClientPlace.Leaving, *]

/-- What the new place `q` of the client `i` and the new registration have to fit. -/
structure Fits (cfg : Config) (s s' : State ι) (i : ι) (q : ClientPlace ι) : Prop where
  gate : s'.mem.record.tlExitGate = s.mem.record.tlExitGate ∨
    s'.mem.record.tlExitGate = cfg.kport ∧ s.target.GateUnstored
  others : ∀ j, j ≠ i → s.target.GateUnstored ∧ (s.client j).InLoop ∨
    s.target.Untested ∧ s.client j = .asleep → s'.mem.record.tlJoinCtx = s.mem.record.tlJoinCtx
  joined : s.target.GateUnstored → q = .storeCtx ∨ q.InLoop →
    s'.mem.record.tlExitGate = cfg.kport
  stays : s.target.GateUnstored → ¬ q.Leaving
  registered : s.target.GateUnstored → q.InLoop → s'.mem.record.tlJoinCtx = some i
  alone : s.target.Untested → q.InLoop ∨ q.Leaving → ∀ j, j ≠ i → s.client j ≠ .asleep
  asleep : q = .asleep → s.target.GateUnstored

theorem fits_elsewhere {cfg : Config} {s s' : State ι} {i : ι} {q : ClientPlace ι}
    (hq : q.Elsewhere) (hgt : s'.mem.record.tlExitGate = s.mem.record.tlExitGate)
    (hctx : ∀ j, j ≠ i → s.target.GateUnstored ∧ (s.client j).InLoop ∨
      s.target.Untested ∧ s.client j = .asleep →
        s'.mem.record.tlJoinCtx = s.mem.record.tlJoinCtx) : Fits cfg s s' i q := by
  obtain ⟨hstore, hloop, hleave⟩ := hq
  refine ⟨.inl hgt, hctx, fun _ h => ?_, fun _ => hleave, fun _ h => absurd h hloop,
    fun _ h => ?_, fun h => ?_⟩
  · exact absurd h (not_or.mpr ⟨hstore, hloop⟩)
  · exact absurd h (not_or.mpr ⟨hloop, hleave⟩)
  · exact absurd (.inr (.inr h)) hloop

variable [DecidableEq ι]

/-- What a client's step does to the gate, to `tl_join_ctx` and to the client's place. -/
inductive ClientEffect (cfg : Config) (s s' : State ι) (i : ι) : Prop where
  | quiet (q) (client : s'.client = Function.update s.client i q) (elsewhere : q.Elsewhere)
      (gate : s'.mem.record.tlExitGate = s.mem.record.tlExitGate)
      (ctx : s'.mem.record.tlJoinCtx = s.mem.record.tlJoinCtx)
  | storeGate (was : s.client i = .storeGate)
      (client : s'.client = Function.update s.client i .storeCtx)
      (gate : s'.mem.record.tlExitGate = cfg.kport)
      (ctx : s'.mem.record.tlJoinCtx = s.mem.record.tlJoinCtx)
  | register (was : s.client i = .storeCtx)
      (client : s'.client = Function.update s.client i .readGate)
      (gate : s'.mem.record.tlExitGate = s.mem.record.tlExitGate)
      (ctx : s'.mem.record.tlJoinCtx = some i)
  | stay (q) (was : (s.client i).InLoop) (client : s'.client = Function.update s.client i q)
      (loop : q = .readGate ∨ q = .wait ∨
        q = .asleep ∧ s.mem.record.tlExitGate = cfg.kport)
      (gate : s'.mem.record.tlExitGate = s.mem.record.tlExitGate)
      (ctx : s'.mem.record.tlJoinCtx = s.mem.record.tlJoinCtx)
  | leave (was : s.client i = .readGate) (passed : s.mem.record.tlExitGate ≠ cfg.kport)
      (client : s'.client = Function.update s.client i .testDetached)
      (gate : s'.mem.record.tlExitGate = s.mem.record.tlExitGate)
      (ctx : s'.mem.record.tlJoinCtx = s.mem.record.tlJoinCtx)
  | commit (was : s.client i = .testDetached)
      (client : s'.client = Function.update s.client i .clearCtx)
      (gate : s'.mem.record.tlExitGate = s.mem.record.tlExitGate)
      (ctx : s'.mem.record.tlJoinCtx = s.mem.record.tlJoinCtx)
  | unregister (q) (was : s.client i = .clearCtx ∨ ∃ c, s.client i = .prepost (.unlink c))
      (client : s'.client = Function.update s.client i q) (elsewhere : q.Elsewhere)
      (gate : s'.mem.record.tlExitGate = s.mem.record.tlExitGate)
      (ctx : s'.mem.record.tlJoinCtx = none)

theorem prepost_ctx (cfg : Config) (m : Shared ι) (p : Prepost ι)
    (h : ∀ c, p ≠ .unlink c) :
    (prepostStep cfg m p).1.record.tlJoinCtx = m.record.tlJoinCtx := by
  cases p with
  | loadCtx => simp only [prepostStep]; split <;> rfl
  | copyValue c => simp only [prepostStep]; split <;> rfl
  | unlink c => exact absurd rfl (h c)
  | _ => rfl

theorem run_effect (cfg : Config) (s : State ι) (i : ι) (h : (s.client i).runs = true) :
    ClientEffect cfg s (clientStep cfg s i) i := by
  have quiet : ∀ (m : Shared ι) (q : ClientPlace ι), q.Elsewhere →
      m.record.tlExitGate = s.mem.record.tlExitGate →
      m.record.tlJoinCtx = s.mem.record.tlJoinCtx →
      ClientEffect cfg s (({ s with mem := m } : State ι).go i q) i :=
    fun m q hq hg hc => .quiet q rfl hq hg hc
  have back : ∀ res, ClientPlace.Elsewhere (.returned res : ClientPlace ι) := by
    intro res
    apply elsewhere_of_ne <;> simp
  unfold clientStep
  cases hp : s.client i <;> rw [hp] at h <;> dsimp only
  case idle | wait | asleep | wake | returned | fault => cases h
  case joinTestJoinable | joinTestCtx | readCleansUp | deallocate | detachTestJoinable =>
    split_ifs
    all_goals
      first
      | exact quiet _ _ (back _) rfl rfl
      | exact quiet _ _ (by apply elsewhere_of_ne <;> simp) rfl rfl
  case unmap => exact quiet _ _ (back _) rfl rfl
  case joinTestSelf | joinUnsetJoinable | detachUnsetJoinable =>
    exact quiet _ _ (by apply elsewhere_of_ne <;> simp) rfl rfl
  case joinTestGate | detachTestCtx =>
    exact quiet _ _ (by split_ifs <;> apply elsewhere_of_ne <;> simp) rfl rfl
  case joinCopyValue =>
    refine quiet _ _ (by apply elsewhere_of_ne <;> simp) ?_ ?_
    · split_ifs <;> rfl
    · split_ifs <;> rfl
  case detachTestGate =>
    split_ifs
    · exact quiet _ _ (by apply elsewhere_of_ne <;> simp) rfl rfl
    · exact quiet _ _ (by apply elsewhere_of_ne <;> simp) rfl rfl
  case storeGate => exact .storeGate hp rfl rfl rfl
  case storeCtx => exact .register hp rfl rfl rfl
  case readGate =>
    split_ifs with hdead hport
    · exact .leave hp (by rw [hdead]; exact cfg.port_ne_dead.symm) rfl rfl rfl
    · exact .leave hp hport rfl rfl rfl
    · exact .stay _ (.inl hp) rfl (.inr (.inl rfl)) rfl rfl
  case testDetached =>
    split_ifs
    · exact quiet _ _ (back _) rfl rfl
    · exact .commit hp rfl rfl rfl
  case clearCtx => exact .unregister _ (.inl hp) rfl (by apply elsewhere_of_ne <;> simp) rfl rfl
  case prepost p =>
    have hg := prepost_gate cfg s.mem p
    by_cases hu : ∃ c, p = .unlink c
    · obtain ⟨c, rfl⟩ := hu
      exact .unregister _ (.inr ⟨c, hp⟩) rfl (by apply elsewhere_of_ne <;> simp) rfl rfl
    · have hc := prepost_ctx cfg s.mem p fun c hpc => hu ⟨c, hpc⟩
      generalize prepostStep cfg s.mem p = r at hg hc
      obtain ⟨m, _ | _ | _⟩ := r
      all_goals exact quiet _ _ (by apply elsewhere_of_ne <;> simp) hg hc

theorem eq_of_moved {s s' : State ι} {i : ι} {q : ClientPlace ι}
    (hc : s'.client = Function.update s.client i q) : s'.client i = q := by
  rw [hc, Function.update_self]

theorem other_of_moved {s s' : State ι} {i j : ι} {q : ClientPlace ι}
    (hc : s'.client = Function.update s.client i q) (hj : j ≠ i) : s'.client j = s.client j := by
  rw [hc, Function.update_of_ne hj]

/-- Only while the target has not stored the gate does a client fall asleep. -/
theorem Fits.was_asleep {cfg : Config} {s s' : State ι} {i j : ι} {q : ClientPlace ι}
    (hf : Fits cfg s s' i q) (hc : s'.client = Function.update s.client i q)
    (hj : s'.client j = .asleep) (hu : ¬ s.target.GateUnstored) :
    j ≠ i ∧ s.client j = .asleep := by
  have hji : j ≠ i := by
    rintro rfl
    exact hu (hf.asleep ((eq_of_moved hc).symm.trans hj))
  rw [other_of_moved hc hji] at hj
  exact ⟨hji, hj⟩

theorem GateInvariant.alone_moved {cfg : Config} {s s' : State ι} {i j k : ι}
    {q : ClientPlace ι} (h : GateInvariant cfg s) (hf : Fits cfg s s' i q)
    (hc : s'.client = Function.update s.client i q) (hun : s.target.Untested)
    (hj : s'.client j = .asleep) (hk : (s'.client k).InLoop ∨ (s'.client k).Leaving) : k = j := by
  by_cases hji : j = i
  · subst hji
    by_cases hkj : k = j
    · exact hkj
    · have hq := (eq_of_moved hc).symm.trans hj
      have hu := hf.asleep hq
      rw [other_of_moved hc hkj] at hk
      -- both are registered in `tl_join_ctx`
      have hloop := hk.resolve_right (h.stays k hu)
      have hctx := hf.others k hkj (.inl ⟨hu, hloop⟩)
      rw [h.registered k hu hloop, hf.registered hu (.inr (.inr hq))] at hctx
      exact (Option.some.inj hctx).symm
  · rw [other_of_moved hc hji] at hj
    by_cases hki : k = i
    · subst hki
      rw [eq_of_moved hc] at hk
      exact absurd hj (hf.alone hun hk j hji)
    · rw [other_of_moved hc hki] at hk
      exact h.alone j k hun hj hk

theorem GateInvariant.moved {cfg : Config} {s s' : State ι} {i : ι} {q : ClientPlace ι}
    (h : GateInvariant cfg s) (hc : s'.client = Function.update s.client i q)
    (ht : s'.target = s.target) (hl : s'.locals = s.locals) (hf : Fits cfg s s' i q) :
    GateInvariant cfg s' := by
  have hself : s'.client i = q := eq_of_moved hc
  have hother : ∀ j, j ≠ i → s'.client j = s.client j := fun j => other_of_moved hc
  have hkeeps : s.mem.record.tlExitGate = cfg.kport → s'.mem.record.tlExitGate = cfg.kport :=
    fun hg => hf.gate.elim (fun he => he.trans hg) And.left
  constructor
  · rcases hf.gate with hg | ⟨hg, hu⟩
    · rw [hg, ht]
      exact h.gate
    · rw [ht]
      exact .inr ⟨hg, hu⟩
  · intro j hu hj
    rw [ht] at hu
    by_cases hji : j = i
    · subst hji
      rw [hself] at hj
      exact hf.joined hu hj
    · rw [hother j hji] at hj
      exact hkeeps (h.joined j hu hj)
  · intro j hu
    rw [ht] at hu
    by_cases hji : j = i
    · subst hji
      rw [hself]
      exact hf.stays hu
    · rw [hother j hji]
      exact h.stays j hu
  · intro j hu hj
    rw [ht] at hu
    by_cases hji : j = i
    · subst hji
      rw [hself] at hj
      exact hf.registered hu hj
    · rw [hother j hji] at hj
      rw [hf.others j hji (.inl ⟨hu, hj⟩)]
      exact h.registered j hu hj
  · intro j hun hj
    rw [ht] at hun
    by_cases hji : j = i
    · subst hji
      have hq := hself.symm.trans hj
      exact hf.registered (hf.asleep hq) (.inr (.inr hq))
    · rw [hother j hji] at hj
      rw [hf.others j hji (.inr ⟨hun, hj⟩)]
      exact h.sleeper j hun hj
  · intro j k hun hj hk
    rw [ht] at hun
    exact h.alone_moved hf hc hun hj hk
  · intro j hj hun
    rw [ht] at hun
    obtain ⟨_, hold⟩ := hf.was_asleep hc hj fun hu => hun (.inl hu)
    have hpend := h.pending j hold hun
    rw [WakePending, ht, hl]
    exact hpend
  · intro j k hj hk
    by_cases hun : s.target.Untested
    · exact (h.alone_moved hf hc hun hj (.inl (.inr (.inr hk)))).symm
    · have hu : ¬ s.target.GateUnstored := fun hu => hun (.inl hu)
      exact h.single j k (hf.was_asleep hc hj hu).2 (hf.was_asleep hc hk hu).2

theorem ClientEffect.fits {cfg : Config} {s s' : State ι} {i : ι} (h : GateInvariant cfg s)
    (he : ClientEffect cfg s s' i) (hg : gateGuard s (.run i)) :
    ∃ q, s'.client = Function.update s.client i q ∧ Fits cfg s s' i q := by
  obtain ⟨hgate, hreg, hun⟩ := hg
  -- a sleeper is the only client in the loop or behind it
  have halone : (s.client i).InLoop ∨ (s.client i).Leaving → s.target.Untested →
      ∀ j, j ≠ i → s.client j ≠ .asleep :=
    fun hi ht j hj hs => hj (h.alone j i ht hs hi).symm
  cases he with
  | quiet q hc hq hgt hctx => exact ⟨q, hc, fits_elsewhere hq hgt fun _ _ _ => hctx⟩
  | storeGate was hc hgt hctx =>
    refine ⟨_, hc, .inr ⟨hgt, hgate was⟩, fun _ _ _ => hctx, fun _ _ => hgt, ?_, ?_, ?_, ?_⟩
    all_goals simp [ClientPlace.Leaving, ClientPlace.InLoop]
  | register was hc hgt hctx =>
    have hnone := hreg was
    refine ⟨_, hc, .inl hgt, fun j _ hj => ?_, fun hu _ => hgt.trans (h.joined i hu (.inl was)),
      by simp [ClientPlace.Leaving], fun _ _ => hctx, fun ht _ j _ hj => ?_, by simp⟩
    · have hsome : s.mem.record.tlJoinCtx = some j :=
        hj.elim (fun hj => h.registered j hj.1 hj.2) fun hj => h.sleeper j hj.1 hj.2
      rw [hnone] at hsome
      cases hsome
    · have hsome := h.sleeper j ht hj
      rw [hnone] at hsome
      cases hsome
  | stay q was hc hq hgt hctx =>
    refine ⟨q, hc, .inl hgt, fun _ _ _ => hctx, fun hu _ => hgt.trans (h.joined i hu (.inr was)),
      fun _ hleave => ?_, fun hu _ => hctx.trans (h.registered i hu was),
      fun ht _ => halone (.inl was) ht, fun hs => ?_⟩
    · rcases hleave with rfl | rfl <;> simp at hq
    · have hport : s.mem.record.tlExitGate = cfg.kport := by
        subst hs
        simpa using hq
      exact (h.gate.resolve_left (hport ▸ cfg.port_ne_zero)).2
  | leave was hp hc hgt hctx =>
    refine ⟨_, hc, .inl hgt, fun _ _ _ => hctx, by simp [ClientPlace.InLoop],
      fun hu _ => hp (h.joined i hu (.inr (.inl was))), by simp [ClientPlace.InLoop],
      fun ht _ => halone (.inl (.inl was)) ht, by simp⟩
  | commit was hc hgt hctx =>
    refine ⟨_, hc, .inl hgt, fun _ _ _ => hctx, by simp [ClientPlace.InLoop],
      fun hu _ => h.stays i hu (.inl was), by simp [ClientPlace.InLoop],
      fun ht _ => halone (.inr (.inl was)) ht, by simp⟩
  | unregister q was hc hq hgt hctx =>
    refine ⟨q, hc, fits_elsewhere hq hgt fun j hj hlost => ?_⟩
    rcases was with was | ⟨c, was⟩
    · rcases hlost with ⟨hu, -⟩ | ⟨ht, hs⟩
      · exact absurd (.inr was) (h.stays i hu)
      · exact absurd hs (halone (.inr (.inr was)) ht j hj)
    · have hnot := hun c was
      exact absurd (hlost.elim (fun hl => .inl hl.1) And.left) hnot

theorem GateInvariant.client {cfg : Config} {s s' : State ι} {i : ι}
    (h : GateInvariant cfg s) (he : ClientEffect cfg s s' i)
    (ht : s'.target = s.target) (hl : s'.locals = s.locals)
    (hg : gateGuard s (.run i)) : GateInvariant cfg s' := by
  obtain ⟨q, hc, hf⟩ := he.fits h hg
  exact h.moved hc ht hl hf

theorem targetRun_effect (cfg : Config) (s : State ι) (h : s.target.runs = true) :
    TargetEffect s (targetStep cfg s) := by
  unfold targetStep
  cases ht : s.target <;> rw [ht] at h <;> dsimp only
  case wake | done | fault => cases h
  case prepost p =>
    have hg := prepost_gate cfg s.mem p
    generalize prepostStep cfg s.mem p = r at hg
    obtain ⟨m, _ | _ | _⟩ := r
    all_goals
      refine tested_effect rfl hg ?_ ?_ fun _ => ?_
      all_goals simp [ht, TargetPlace.Untested, TargetPlace.GateUnstored, WakePending]
  case storeGate =>
    refine untested_effect rfl rfl ?_ ?_ ?_ fun _ => .inl rfl
    all_goals simp [ht, TargetPlace.Untested, TargetPlace.GateUnstored]
  case running =>
    refine untested_effect rfl rfl ?_ ?_ (fun _ => ⟨?_, rfl⟩) ?_
    all_goals simp [ht, TargetPlace.Untested, TargetPlace.GateUnstored]
  case split =>
    obtain ⟨hg, hc, _⟩ := enterTerminate_fields cfg s.mem.record
    refine untested_effect rfl hc ?_ ?_ (fun _ => ⟨?_, hg⟩) ?_
    all_goals simp [ht, TargetPlace.Untested, TargetPlace.GateUnstored]
  case storeValue =>
    refine untested_effect rfl rfl ?_ ?_ ?_ fun _ => .inr ⟨?_, rfl⟩
    all_goals simp [ht, TargetPlace.Untested, TargetPlace.GateUnstored]
  case testCtx =>
    have hu : s.target.Untested := by simp [ht, TargetPlace.Untested]
    refine ⟨rfl, ?_, fun _ => .inr ⟨?_, rfl⟩, fun _ => ⟨hu, rfl⟩, fun _ => ⟨fun _ hc => ?_, ?_⟩⟩
    · split_ifs <;> simp [TargetPlace.GateUnstored]
    · simp [ht, TargetPlace.GateUnstored]
    · rw [if_pos hc]
      exact .inl ⟨_, rfl⟩
    · intro hn
      exact absurd hu hn
  case testJoinable =>
    have hpend : WakePending s → s.locals.needsWake = true := by simp [WakePending, ht]
    refine tested_effect rfl rfl ?_ ?_ fun hp => ?_
    · simp [ht, TargetPlace.Untested, TargetPlace.GateUnstored]
    · unfold afterList
      split_ifs <;> simp [TargetPlace.Untested, TargetPlace.GateUnstored]
    · simp only [afterList, hpend hp, if_true]
      split_ifs <;> simp [WakePending, hpend hp]
  case setKeep =>
    have hpend : WakePending s → s.locals.needsWake = true := by simp [WakePending, ht]
    refine tested_effect rfl rfl ?_ ?_ fun hp => ?_
    · simp [ht, TargetPlace.Untested, TargetPlace.GateUnstored]
    · unfold afterList
      split_ifs <;> simp [TargetPlace.Untested, TargetPlace.GateUnstored]
    · simp [WakePending, afterList, hpend hp]
  case retestCtx =>
    refine tested_effect rfl rfl ?_ ?_ fun hp => absurd hp (by simp [WakePending, ht])
    · simp [ht, TargetPlace.Untested, TargetPlace.GateUnstored]
    · split_ifs <;> simp [TargetPlace.Untested, TargetPlace.GateUnstored]
  case setKeepAfterWake | terminate =>
    refine tested_effect rfl rfl ?_ ?_ fun hp => absurd hp (by simp [WakePending, ht])
    · simp [ht, TargetPlace.Untested, TargetPlace.GateUnstored]
    · simp [TargetPlace.Untested, TargetPlace.GateUnstored]

theorem wake_effect (cfg : Config) {s : State ι} {j : ι} (hj : s.client j = .asleep) :
    ClientEffect cfg s (s.wake (some j)) j :=
  .stay .readGate (.inr (.inr hj)) rfl (.inl rfl) rfl rfl

theorem GateInvariant.wake {cfg : Config} {s : State ι} {woken : Option ι}
    (h : GateInvariant cfg s) (hw : WakesOne s woken) : GateInvariant cfg (s.wake woken) := by
  cases woken with
  | none => exact h
  | some j =>
    have hj : s.client j = .asleep := hw
    exact h.client (wake_effect cfg hj) rfl rfl (by simp [gateGuard, hj])

/-- The target's wake-up leaves no sleeper, since there was at most one. -/
theorem GateInvariant.not_asleep_wake {cfg : Config} {s : State ι} {woken : Option ι}
    (h : GateInvariant cfg s) (hw : WakesOne s woken) (i : ι) :
    (s.wake woken).client i ≠ .asleep := by
  cases woken with
  | none => exact hw i
  | some j =>
    intro hi
    by_cases hij : i = j
    · simp [State.wake, State.go, hij] at hi
    · have hi : s.client i = .asleep := by simpa [State.wake, State.go, hij] using hi
      exact hij (h.single i j hi hw)

theorem gate_step {cfg : Config} {s : State ι} {e : Event ι} (h : GateInvariant cfg s)
    (he : Enabled cfg s e) (hg : gateGuard s e) : GateInvariant cfg (next cfg s e) := by
  cases e with
  | startJoin i valuePtr =>
    have he : (s.client i).outside = true := he
    have hout : gateGuard s (.run i) := by
      cases hp : s.client i <;> simp [hp, gateGuard, ClientPlace.outside] at he ⊢
    exact h.client (.quiet .joinTestJoinable rfl (by apply elsewhere_of_ne <;> simp) rfl rfl)
      rfl rfl hout
  | startDetach i =>
    have he : (s.client i).outside = true := he
    have hout : gateGuard s (.run i) := by
      cases hp : s.client i <;> simp [hp, gateGuard, ClientPlace.outside] at he ⊢
    exact h.client (.quiet .detachTestJoinable rfl (by apply elsewhere_of_ne <;> simp) rfl rfl)
      rfl rfl hout
  | targetRun => exact h.target (targetRun_effect cfg s he)
  | targetWake woken =>
    exact (h.wake he.2).retest (by cases woken <;> exact he.1) (h.not_asleep_wake he.2)
  | run i =>
    obtain ⟨ht, hl⟩ := clientStep_target cfg s i
    exact h.client (run_effect cfg s i he) ht hl hg
  | deadlock i =>
    have he : s.client i = .joinTestSelf := he
    exact h.client (.quiet _ rfl (by apply elsewhere_of_ne <;> simp) rfl rfl) rfl rfl
      (by simp [gateGuard, he])
  | sleep i =>
    obtain ⟨hi, hgate⟩ := he
    exact h.client (.stay .asleep (.inr (.inl hi)) rfl (.inr (.inr ⟨rfl, hgate⟩)) rfl rfl) rfl rfl
      (by simp [gateGuard, hi])
  | waitReturns i =>
    have hi : (s.client i).InLoop := .inr he
    have hout : gateGuard s (.run i) := by
      rcases he with hi | hi <;> simp [gateGuard, hi]
    exact h.client (.stay .readGate hi rfl (.inl rfl) rfl rfl) rfl rfl hout
  | wake i woken =>
    obtain ⟨hi, hw⟩ := he
    obtain ⟨res, hi⟩ := waking_isSome hi
    have hi' : (s.wake woken).client i = .wake res := by
      cases woken with
      | none => exact hi
      | some j =>
        have hij : i ≠ j := by
          rintro rfl
          have hw : s.client i = .asleep := hw
          simp [hi] at hw
        simpa [State.wake, State.go, hij] using hi
    exact (h.wake hw).client (.quiet _ rfl (by apply elsewhere_of_ne <;> simp) rfl rfl) rfl rfl
      (by simp [gateGuard, hi'])

theorem gate_inductive (cfg : Config) :
    Inductive (joinSystem (ι := ι) cfg) gateGuard (GateInvariant cfg) where
  initial s h := by
    have hidle : (.idle : ClientPlace ι).Elsewhere := by apply elsewhere_of_ne <;> simp
    obtain ⟨hstore, hloop, hleave⟩ := hidle
    have hwake : ∀ i, s.client i ≠ .asleep := by
      intro i
      rw [h.client i]
      simp
    refine ⟨.inl h.gate, fun i _ hi => ?_, fun i _ => ?_, fun i _ hi => ?_,
      fun i _ hi => absurd hi (hwake i), fun i _ _ hi => absurd hi (hwake i),
      fun i hi => absurd hi (hwake i), fun i _ hi => absurd hi (hwake i)⟩
    · rw [h.client i] at hi
      exact absurd hi (not_or.mpr ⟨hstore, hloop⟩)
    · rw [h.client i]
      exact hleave
    · rw [h.client i] at hi
      exact absurd hi hloop
  step _ _ h he hg := gate_step h he hg

/-- No joiner is left asleep by a target that has terminated. -/
theorem joiner_not_asleep_after_exit {cfg : Config} {s : State ι}
    (h : ReachableUnder (joinSystem cfg) gateGuard s) (hd : s.target = .done) (i : ι) :
    s.client i ≠ .asleep := by
  intro hi
  have hp := ((gate_inductive cfg).reachable h).pending i hi
  simp [hd, WakePending, TargetPlace.Untested, TargetPlace.GateUnstored] at hp

instance (p : TargetPlace ι) : Decidable p.GateUnstored :=
  inferInstanceAs (Decidable (p = .running ∨ p = .split ∨ p = .storeGate))

instance (p : TargetPlace ι) : Decidable p.Untested :=
  inferInstanceAs (Decidable (p.GateUnstored ∨ p = .storeValue ∨ p = .testCtx))

instance [Fintype ι] (s : State ι) : (e : Event ι) → Decidable (gateGuard s e)
  | .run i => inferInstanceAs (Decidable (
      (s.client i = .storeGate → s.target.GateUnstored) ∧
      (s.client i = .storeCtx → s.mem.record.tlJoinCtx = none) ∧
      ∀ c, s.client i = .prepost (.unlink c) → ¬ s.target.Untested))
  | .startJoin _ _ | .startDetach _ | .targetRun | .targetWake _ | .deadlock _ | .sleep _
  | .waitReturns _ | .wake _ _ => isTrue trivial

theorem joiner_woken_by_exit :
    let s := runTrace (joinSystem worker) started
      ([.startJoin () true] ++ List.replicate 7 (.run ()) ++ [.sleep ()] ++
        List.replicate 10 .targetRun ++ [.targetWake (some ())] ++ List.replicate 3 .targetRun)
    s.target = .done ∧ s.client () ≠ .asleep :=
  ⟨by decide, joiner_not_asleep_after_exit (valid_trace_reachable started_initial (by decide))
    (by decide) ()⟩

/-- A join that starts after the target has terminated stores the port in the gate and sleeps. -/
theorem late_joiner_sleeps_forever :
    ∃ s : State Unit, Reachable (joinSystem worker) s ∧ s.target = .done ∧ s.client () = .asleep :=
  ⟨runTrace (joinSystem worker) started
      (List.replicate 8 .targetRun ++ [.startJoin () true] ++ List.replicate 7 (.run ()) ++
        [.sleep ()]),
    valid_trace_reachable started_initial (by decide), by decide, by decide⟩

end ThreadJoin

import LibSystemCall.AtomicObject
import LibSystemCall.CriticalSection
import LibSystemCall.UnfairLock

/-! # The unfair lock is linearizable to a mutex

A call of z_lock.c takes effect at its successful swap of 0, at the swap that fails for
`z_lock_trylock`, or at the fetch-and-and of `z_lock_unlock`; it returns when its thread
leaves the code of the lock. -/
namespace UnfairLock

open GuardedSystem EventSimulation AtomicObject

inductive Operation where
  | lock
  | trylock
  | unlock
  deriving DecidableEq, Repr

/-- A mutex: its value is the owner. The answer says whether the caller owns it afterwards. -/
def mutex (ι : Type*) : Object ι (Option ι) Operation Bool where
  Allows owner i
    | .lock, answer => owner = none ∧ answer = true
    | .trylock, answer => answer = owner.isNone
    | .unlock, answer => owner = some i ∧ answer = false
  after owner i
    | .lock, _ => some i
    | .trylock, answer => if answer then some i else owner
    | .unlock, _ => none

def Place.operation : Place → Option Operation
  | .idle | .holds => none
  | .tryNow => some .trylock
  | .lockNow | .readWord _ | .swapClear _ _ | .wait _ _ | .asleep _ | .woken _ _
  | .finalSwap _ => some .lock
  | .unlockNow | .wake => some .unlock

variable {ι : Type*}

def Event.thread : Event ι → ι
  | .lock i | .trylock i | .unlock i | .run i | .sleep i | .waitReturns i _
  | .wakeReturns i _ _ => i

def effects (s : State ι) (i : ι) : List (AtomicObject.Event ι Operation Bool) :=
  match s.place i with
  | .tryNow => [.commit i .trylock (s.word = 0)]
  | .lockNow | .finalSwap _ => if s.word = 0 then [.commit i .lock true] else []
  | .unlockNow => [.commit i .unlock false]
  | _ => []

/-- A call is over when its thread is outside of the lock's code again; the answer is what the
caller finds. -/
def returns (i : ι) (p q : Place) : List (AtomicObject.Event ι Operation Bool) :=
  match p.operation, q.operation with
  | some op, none => [.ret i op (q = .holds)]
  | _, _ => []

/-- Where a thread is in the atomic system: past its effect only while it wakes a sleeper. -/
def Place.phase : Place → Phase Operation Bool
  | .wake => .done .unlock false
  | p => match p.operation with
    | none => .outside
    | some op => .called op

structure Linked (P : PortNames ι) (s : State ι)
    (a : AtomicObject.State ι (Option ι) Operation Bool) : Prop where
  exclusion : Exclusion P s
  owner : ∀ i, a.value = some i ↔ Holds s i
  phase : ∀ i, a.phase i = (s.place i).phase

variable {P : PortNames ι} {s s' : State ι}
  {a : AtomicObject.State ι (Option ι) Operation Bool} {i : ι} {p : Place}

theorem Linked.value_none (h : Linked P s a) : a.value = none ↔ s.word = 0 := by
  constructor
  · intro hn
    rcases h.exclusion with ⟨h0, _⟩ | ⟨k, _, hk⟩
    · exact h0
    · have := (h.owner k).mpr ((hk k).mpr rfl)
      rw [hn] at this
      cases this
  · intro h0
    rcases h.exclusion with ⟨_, hn⟩ | ⟨k, hk, _⟩
    · cases hv : a.value with
      | none => rfl
      | some j => exact absurd ((h.owner j).mp hv) (hn j)
    · exact absurd h0 hk.ne_zero

theorem Linked.value_isNone (h : Linked P s a) : a.value.isNone = decide (s.word = 0) := by
  rw [Bool.eq_iff_iff, decide_eq_true_iff, ← h.value_none, Option.isNone_iff_eq_none]

theorem retryLock_slow {current : Word} (hne : current ≠ P.port i) (waiters : Bool) :
    (retryLock (P.port i) current waiters).operation = some .lock := by
  unfold retryLock retry
  rw [if_neg fun hc => hne hc.1]
  split <;> rfl

theorem returns_outside {q : Place} {op : Operation} (hp : p.operation = some op)
    (hq : q.operation = none) : returns i p q = [.ret i op (q = .holds)] := by
  simp only [returns, hp, hq]

theorem returns_inside {q : Place} {op op' : Operation} (hp : p.operation = some op)
    (hq : q.operation = some op') : returns i p q = [] := by
  simp only [returns, hp, hq]

variable [DecidableEq ι]

def acts (P : PortNames ι) (s : State ι) (e : Event ι) :
    List (AtomicObject.Event ι Operation Bool) :=
  match e with
  | .lock i => [.call i .lock]
  | .trylock i => [.call i .trylock]
  | .unlock i => [.call i .unlock]
  | .run i => effects s i ++ returns i (s.place i) ((next P s e).place i)
  | .sleep i | .waitReturns i _ | .wakeReturns i _ _ =>
    returns i (s.place i) ((next P s e).place i)

theorem goto_place (s : State ι) (i : ι) (p : Place) : (s.goto i p).place i = p :=
  Function.update_self ..

theorem Linked.moved {a' : AtomicObject.State ι (Option ι) Operation Bool} (h : Linked P s a)
    (hx : Exclusion P s') (ho : ∀ j, a'.value = some j ↔ Holds s' j)
    (hp : s'.place = Function.update s.place i p)
    (ha : a'.phase = Function.update a.phase i p.phase) : Linked P s' a' := by
  refine ⟨hx, ho, fun j => ?_⟩
  rw [ha, hp, Function.update_apply, Function.update_apply]
  split
  · rfl
  · exact h.phase j

theorem Linked.quiet (h : Linked P s a) (hx : Exclusion P s')
    (hp : s'.place = Function.update s.place i p) (hph : p.phase = (s.place i).phase)
    (hh : p.Holding ↔ (s.place i).Holding) : Linked P s' a := by
  refine h.moved hx (fun j => ?_) hp ?_
  · rw [h.owner, ← holds_goto_of_iff hh j, Holds, Holds, hp, State.goto]
  · rw [hph, ← h.phase, Function.update_eq_self]

theorem phase_lock (hp : p.operation = some .lock) : p.phase = .called .lock := by
  cases p <;> first | rfl | cases hp

theorem not_holding_lock (hp : p.operation = some .lock) : ¬ p.Holding := by
  cases p <;> first | exact id | cases hp

theorem Linked.slow (h : Linked P s a) (hx : Exclusion P s')
    (hp : s'.place = Function.update s.place i p) (hi : (s.place i).operation = some .lock)
    (hq : p.operation = some .lock) : Linked P s' a :=
  h.quiet hx hp ((phase_lock hq).trans (phase_lock hi).symm)
    (iff_of_false (not_holding_lock hq) (not_holding_lock hi))

theorem Linked.acquired (op : Operation) (h : Linked P s a) (hx : Exclusion P s')
    (free : s.word = 0) (hp : s'.place = Function.update s.place i .holds)
    (hi : (s.place i).phase = .called op) (hop : op = .lock ∨ op = .trylock) :
    ValidTrace (atomicSystem (mutex ι) none) anyStep a [.commit i op true, .ret i op true] ∧
      Linked P s' (runTrace (atomicSystem (mutex ι) none) a
        [.commit i op true, .ret i op true]) := by
  have hn := h.value_none.mpr free
  have hph := (h.phase i).trans hi
  have hv : (mutex ι).after a.value i op true = some i := by
    rcases hop with rfl | rfl <;> rfl
  refine ⟨⟨⟨⟨hph, ?_⟩, trivial⟩, ⟨?_, trivial⟩, trivial⟩, ?_⟩
  · rcases hop with rfl | rfl
    · exact ⟨hn, rfl⟩
    · simp [mutex, hn]
  · exact Function.update_self ..
  · refine h.moved hx (fun j => ?_) hp (Function.update_idem ..)
    change (mutex ι).after a.value i op true = some j ↔ _
    have hnone : ∀ k, ¬ Holds s k := fun k hk => by
      have := (h.owner k).mpr hk
      rw [hn] at this
      cases this
    rw [hv, Holds, hp, Function.update_apply, Option.some.injEq, eq_comm]
    split
    · next hj => simp [hj, Place.Holding]
    · next hj => exact iff_of_false hj (hnone j)

theorem Linked.refused (h : Linked P s a) (hi : s.place i = .tryNow) (held : s.word ≠ 0) :
    ValidTrace (atomicSystem (mutex ι) none) anyStep a
        [.commit i .trylock false, .ret i .trylock false] ∧
      Linked P (s.goto i .idle) (runTrace (atomicSystem (mutex ι) none) a
        [.commit i .trylock false, .ret i .trylock false]) := by
  have hph : a.phase i = .called .trylock := (h.phase i).trans (by rw [hi]; rfl)
  have hx : Exclusion P (s.goto i .idle) :=
    (neutral_goto P (by simp [hi, Place.Holding])).exclusion h.exclusion
  refine ⟨⟨⟨⟨hph, ?_⟩, trivial⟩, ⟨?_, trivial⟩, trivial⟩, ?_⟩
  · simpa [mutex, h.value_isNone] using held
  · exact Function.update_self ..
  · refine h.moved hx (fun j => ?_) rfl (Function.update_idem ..)
    exact (h.owner j).trans (holds_goto_of_iff (by simp [hi, Place.Holding]) j).symm

theorem Linked.released (h : Linked P s a) (hi : s.place i = .unlockNow)
    (hp : p = .idle ∨ p = .wake) :
    ValidTrace (atomicSystem (mutex ι) none) anyStep a
        (.commit i .unlock false :: returns i .unlockNow p) ∧
      Linked P ({ s with word := 0 }.goto i p) (runTrace (atomicSystem (mutex ι) none) a
        (.commit i .unlock false :: returns i .unlockNow p)) := by
  have hph : a.phase i = .called .unlock := (h.phase i).trans (by rw [hi]; rfl)
  have howns : Holds s i := by simp [Holds, hi, Place.Holding]
  have hnp : ¬ p.Holding := by rcases hp with rfl | rfl <;> exact id
  have hholds : ∀ j, Holds ({ s with word := 0 }.goto i p) j ↔ Holds s j ∧ j ≠ i := fun j => by
    rw [holds_goto]
    by_cases hj : j = i <;> simp [hj, hnp, Holds]
  have hx : Exclusion P ({ s with word := 0 }.goto i p) :=
    (Effect.release i howns rfl hholds).exclusion h.exclusion
  have hnone : ∀ j, (none : Option ι) = some j ↔ Holds ({ s with word := 0 }.goto i p) j :=
    fun j => by
      rw [hholds]
      refine iff_of_false (Option.some_ne_none j).symm fun hj => hj.2 ?_
      have := (h.owner j).mpr hj.1
      rwa [(h.owner i).mpr howns, Option.some.injEq, eq_comm] at this
  rcases hp with rfl | rfl
  · refine ⟨⟨⟨⟨hph, (h.owner i).mpr howns, rfl⟩, trivial⟩, ⟨?_, trivial⟩, trivial⟩, ?_⟩
    · exact Function.update_self ..
    · exact h.moved hx hnone rfl (Function.update_idem ..)
  · exact ⟨⟨⟨⟨hph, (h.owner i).mpr howns, rfl⟩, trivial⟩, trivial⟩, h.moved hx hnone rfl rfl⟩

theorem Linked.swapped {w : Word} (h : Linked P s a) (hi : (s.place i).operation = some .lock)
    (hw : WordOf P i w) (hp : p.operation = some .lock) :
    let s' := if s.word = 0 then { s with word := w }.goto i .holds else s.goto i p
    let shown := (if s.word = 0 then [.commit i .lock true] else []) ++
      returns i (s.place i) (s'.place i)
    ValidTrace (atomicSystem (mutex ι) none) anyStep a shown ∧
      Linked P s' (runTrace (atomicSystem (mutex ι) none) a shown) := by
  dsimp only
  split
  · next h0 =>
    rw [goto_place, returns_outside hi rfl]
    exact h.acquired .lock ((acquire_goto h0 hw).exclusion h.exclusion) h0 rfl (phase_lock hi)
      (.inl rfl)
  · have hx := neutral_goto P (s := s) (i := i)
      (iff_of_false (not_holding_lock hp) (not_holding_lock hi))
    rw [goto_place, returns_inside hi hp]
    exact ⟨trivial, h.slow (hx.exclusion h.exclusion) rfl hi hp⟩

/-- A move inside of `z_lock_lock` shows nothing. -/
theorem Linked.unseen (h : Linked P s a) (hx : Exclusion P s')
    (hp : s'.place = Function.update s.place i p) (hi : (s.place i).operation = some .lock)
    (hq : p.operation = some .lock) :
    ValidTrace (atomicSystem (mutex ι) none) anyStep a
        (returns i (s.place i) (s'.place i)) ∧
      Linked P s' (runTrace (atomicSystem (mutex ι) none) a
        (returns i (s.place i) (s'.place i))) := by
  rw [hp, Function.update_self, returns_inside hi hq]
  exact ⟨trivial, h.slow hx hp hi hq⟩

theorem run_linked (h : Linked P s a) (he : Enabled s (.run i)) :
    ValidTrace (atomicSystem (mutex ι) none) anyStep a (acts P s (.run i)) ∧
      Linked P (next P s (.run i))
        (runTrace (atomicSystem (mutex ι) none) a (acts P s (.run i))) := by
  have hx : Exclusion P (runStep (P.port i) s i) := (run_effect h.exclusion i he).exclusion
    h.exclusion
  have he : (s.place i).runs = true := he
  change _ ∧ Linked P (runStep (P.port i) s i) _
  have hacts : acts P s (.run i) =
      effects s i ++ returns i (s.place i) ((runStep (P.port i) s i).place i) := rfl
  rw [hacts]
  cases hp : s.place i <;> rw [hp] at he
  case idle | wait | asleep | woken | holds | wake => cases he
  case lockNow =>
    have := h.swapped (p := .readWord false) (by rw [hp]; rfl) (.inl rfl) rfl
    simpa only [effects, runStep, hp] using this
  case finalSwap waiters =>
    have := h.swapped (by rw [hp]; rfl) (wordOf_mask P i waiters)
      (retryLock_slow (P.ne_zero i).symm waiters)
    simpa only [effects, runStep, hp] using this
  case tryNow =>
    simp only [effects, runStep, hp]
    split
    · next h0 =>
      have := h.acquired .trylock ((acquire_goto h0 (.inl rfl)).exclusion h.exclusion) h0 rfl
        (by rw [hp]; rfl) (.inr rfl)
      simpa [h0, returns, Place.operation, State.goto] using this
    · next h0 =>
      rw [decide_eq_false h0]
      simpa [returns, Place.operation, State.goto] using h.refused hp h0
  case readWord waiters =>
    have hne : s.word ≠ P.port i := h.exclusion.ne_port (by simp [Holds, hp, Place.Holding])
    have hi : (s.place i).operation = some .lock := by rw [hp]; rfl
    simp only [effects, runStep, hp] at hx ⊢
    rw [← hp]
    split
    · next h0 =>
      rw [if_pos h0] at hx
      exact h.unseen hx rfl hi (retryLock_slow hne waiters)
    · next h0 =>
      rw [if_neg h0] at hx
      exact h.unseen hx rfl hi rfl
  case swapClear current waiters =>
    have hi : (s.place i).operation = some .lock := by rw [hp]; rfl
    simp only [effects, runStep, hp] at hx ⊢
    rw [← hp]
    split
    · next h0 =>
      rw [if_pos h0] at hx
      exact h.unseen hx rfl hi rfl
    · next h0 =>
      rw [if_neg h0] at hx
      exact h.unseen hx rfl hi rfl
  case unlockNow =>
    have := h.released hp (p := if s.word = P.port i then .idle else .wake)
      (by split <;> simp)
    simpa [effects, runStep, hp, State.goto] using this

theorem Linked.woke (h : Linked P s a) (hi : s.place i = .wake) (ret : ℤ) :
    ValidTrace (atomicSystem (mutex ι) none) anyStep a (returns i .wake (afterWake ret)) ∧
      Linked P (s.goto i (afterWake ret)) (runTrace (atomicSystem (mutex ι) none) a
        (returns i .wake (afterWake ret))) := by
  have hnw : ¬ (s.place i).Holding := by rw [hi]; exact id
  have hph : a.phase i = .done .unlock false := (h.phase i).trans (by rw [hi]; rfl)
  unfold afterWake
  split
  · have hx := neutral_goto P (s := s) (p := .wake) (iff_of_false id hnw)
    exact ⟨trivial, h.quiet (hx.exclusion h.exclusion) rfl (by rw [hi]) (iff_of_false id hnw)⟩
  · have hx := neutral_goto P (s := s) (p := .idle) (iff_of_false id hnw)
    refine ⟨⟨⟨hph, trivial⟩, trivial⟩, h.moved (hx.exclusion h.exclusion) (fun j => ?_) rfl rfl⟩
    exact (h.owner j).trans (holds_goto_of_iff (iff_of_false id hnw) j).symm

theorem step_linked (h : Linked P s a) (e : Event ι) (he : Enabled s e) :
    ValidTrace (atomicSystem (mutex ι) none) anyStep a (acts P s e) ∧
      Linked P (next P s e) (runTrace (atomicSystem (mutex ι) none) a (acts P s e)) := by
  have hx : Exclusion P (next P s e) := (step_effect h.exclusion e he).exclusion h.exclusion
  cases e with
  | run i => exact run_linked h he
  | lock i | trylock i | unlock i =>
    have he : s.place i = _ := he
    have hph := (h.phase i).trans (by rw [he])
    refine ⟨⟨⟨hph, trivial⟩, trivial⟩, h.moved hx (fun j => ?_) rfl rfl⟩
    exact (h.owner j).trans (holds_goto_of_iff (by simp [he, Place.Holding]) j).symm
  | sleep i =>
    have he : (s.place i).waits = true := he
    have hi : (s.place i).operation = some .lock := by
      cases hp : s.place i <;> simp_all [Place.waits, Place.operation]
    exact h.unseen hx rfl hi rfl
  | waitReturns i ret =>
    have he : (s.place i).inUlockWait = true := he
    have hi : (s.place i).operation = some .lock := by
      cases hp : s.place i <;> simp_all [Place.inUlockWait, Place.operation]
    have hq : (afterWait ret (s.place i).waiters).operation = some .lock := by
      unfold afterWait
      split_ifs <;> rfl
    exact h.unseen hx rfl hi hq
  | wakeReturns i ret woken =>
    obtain ⟨hi, hj⟩ := he
    have hshown : returns i (s.place i) ((next P s (.wakeReturns i ret woken)).place i) =
        returns i .wake (afterWake ret) := by
      cases woken <;> rw [hi, next, goto_place]
    rw [acts, hshown]
    cases woken with
    | none => exact h.woke hi ret
    | some j =>
      have hj : (s.place j).sleeps = true := hj j rfl
      have hji : i ≠ j := by
        rintro rfl
        simp [hi, Place.sleeps] at hj
      have hslow : (s.place j).operation = some .lock := by
        cases hp : s.place j <;> simp_all [Place.sleeps, Place.operation]
      have hx : Effect P s (State.goto { s with sleepers := s.sleepers.erase j } j
          (.woken (s.sleepers.erase j).card (s.place j).waiters)) :=
        .neutral rfl fun k => holds_goto_of_iff
          (iff_of_false id (not_holding_lock hslow)) k
      exact (h.slow (hx.exclusion h.exclusion) rfl hslow rfl).woke
        ((Function.update_of_ne hji ..).trans hi) ret

theorem lock_simulates (P : PortNames ι) :
    Simulation (lockSystem P) (atomicSystem (mutex ι) none) (acts P) (Linked P) where
  initial s h := ⟨start none, rfl, (exclusion_inductive P).initial s h,
    fun i => iff_of_false nofun (by simp [Holds, h.2.2 i, Place.Holding]),
    fun i => by rw [h.2.2 i]; rfl⟩
  step _ e _ h he := step_linked h e he

/-- Every run of the lock is one of a mutex whose operations take effect in one step between
call and return: the effects are a sequential history that ends with the thread that holds
the lock as the owner. -/
theorem lock_linearizable {P : PortNames ι} {s : State ι} (hs : Initial s) {es : List (Event ι)}
    (h : ValidTrace (lockSystem P) anyStep s es) :
    let shown := observed (lockSystem P) (acts P) s es
    ValidTrace (atomicSystem (mutex ι) none) anyStep (start none) shown ∧
      Legal (mutex ι) none (commits shown) ∧
      ∀ i, Holds (runTrace (lockSystem P) s es) i ↔
        final (mutex ι) none (commits shown) = some i := by
  obtain ⟨_, rfl, hr⟩ := (lock_simulates P).initial s hs
  obtain ⟨hv, hl⟩ := (lock_simulates P).run hr h
  obtain ⟨hlegal, hfinal⟩ := commits_legal hv
  refine ⟨hv, hlegal, fun i => ?_⟩
  rw [← hl.owner, hfinal]
  rfl

theorem lock_linearizable_contended :
    let es := [.lock 0, .run 0, .trylock 1, .run 1, .lock 1, .run 1, .run 1, .run 1, .sleep 1,
      .unlock 0, .run 0, .wakeReturns 0 0 (some 1), .waitReturns 1 0, .run 1, .run 1]
    let shown := observed (lockSystem twoPorts) (acts twoPorts) free es
    commits shown = [(0, .lock, true), (1, .trylock, false), (0, .unlock, false),
      (1, .lock, true)] ∧
    ValidTrace (atomicSystem (mutex (Fin 2)) none) anyStep (start none) shown ∧
      Legal (mutex (Fin 2)) none (commits shown) ∧
      ∀ i, Holds (runTrace (lockSystem twoPorts) free es) i ↔
        final (mutex (Fin 2)) none (commits shown) = some i :=
  ⟨by decide, lock_linearizable ⟨rfl, rfl, fun _ => rfl⟩ (by decide)⟩

/-- The code of the critical section runs: after the return of `z_lock_lock`, or of
`z_lock_trylock` with 1, and before `z_lock_unlock`. -/
def Inside (s : State ι) (i : ι) : Prop := s.place i = .holds

instance (s : State ι) (i : ι) : Decidable (Inside s i) :=
  inferInstanceAs (Decidable (s.place i = .holds))

omit [DecidableEq ι] in
theorem inside_unique (h : Exclusion P s) (i j : ι) (hi : Inside s i) (hj : Inside s j) :
    i = j := by
  have holds : ∀ k, Inside s k → Holds s k := fun k hk => by
    rw [Holds, show s.place k = .holds from hk]
    trivial
  rcases h with ⟨_, hn⟩ | ⟨k, _, hk⟩
  · exact absurd (holds i hi) (hn i)
  · exact ((hk i).mp (holds i hi)).trans ((hk j).mp (holds j hj)).symm

/-- No update of data under the lock is lost, however the loads and stores of the threads
interleave. -/
theorem no_update_lost {α : Type*} {d : α} {x : CriticalSection.Shared (State ι) ι α}
    (hx : (CriticalSection.sharedSystem (lockSystem P) Inside d).Initial x)
    {es : List (CriticalSection.Event (Event ι) ι α)}
    (h : ValidTrace (CriticalSection.sharedSystem (lockSystem P) Inside d) anyStep x es) :
    (runTrace (CriticalSection.sharedSystem (lockSystem P) Inside d) x es).data =
      (CriticalSection.updates es).foldl (fun d f => f d) d := by
  obtain ⟨hs, rfl, hn⟩ := hx
  have hc : CriticalSection.Coherent Inside x := fun i v hv => by
    rw [hn i] at hv
    cases hv
  exact CriticalSection.data_fold (exclusion_inductive P) (fun _ => inside_unique)
    ((exclusion_inductive P).initial _ hs) hc h

theorem no_update_lost_contended :
    (runTrace (CriticalSection.sharedSystem (lockSystem twoPorts) Inside 5)
      ⟨free, 5, fun _ => none⟩
      [.base (.lock 0), .base (.run 0), .base (.lock 1), .base (.run 1), .load 0,
        .base (.run 1), .store 0 (· + 1), .base (.unlock 0), .base (.run 0), .base (.run 1),
        .base (.run 1), .base (.run 1), .load 1, .store 1 (· * 10)]).data = 60 :=
  no_update_lost (P := twoPorts) (d := 5) (x := ⟨free, 5, fun _ => none⟩)
    ⟨⟨rfl, rfl, fun _ => rfl⟩, rfl, fun _ => rfl⟩ (by decide)

end UnfairLock

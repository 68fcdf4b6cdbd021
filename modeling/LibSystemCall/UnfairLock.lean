import LibSystemCall.GuardedSystem
import Mathlib.Data.Finset.Card
import Mathlib.Data.Finset.Insert
import Mathlib.Logic.Function.Basic

/-! # The unfair lock of z_lock.c

One lock word, any number of threads. Each event is one atomic access of the word, or the
kernel's part in `z_ulock_wait` and `z_ulock_wake`. Thread-local code runs with the access
before it. What the kernel returns is free here; `KernelStep` is its documented behaviour. -/
namespace UnfairLock

open GuardedSystem

abbrev Word := BitVec 32

def EINTR : ℤ := 4
def EFAULT : ℤ := 14

/-- `x & ~1`: the word with its no-waiters bit cleared. -/
def clearBit (x : Word) : Word := x &&& ~~~1

def waitersMask (waiters : Bool) : Word := if waiters then 1 else 0

/-- Where a thread is. Inside `z_lock_lock_slow` it carries its `current` and whether its
`waiters_mask` is set. -/
inductive Place where
  | idle
  | tryNow
  | lockNow
  | readWord (waiters : Bool)
  | swapClear (current : Word) (waiters : Bool)
  | wait (current : Word) (waiters : Bool)
  | asleep (waiters : Bool)
  | woken (remaining : ℕ) (waiters : Bool)
  | finalSwap (waiters : Bool)
  | holds
  | unlockNow
  | wake
  deriving DecidableEq, Repr

/-- From the label `_retry` to the next access of the word. -/
def retry (allowAnonymousOwner : Bool) (self current : Word) (waiters : Bool) : Place :=
  if current = self ∧ (¬ allowAnonymousOwner ∨ current ≠ 0) then .holds
  else if current ≠ clearBit current then .swapClear current waiters
  else .wait current waiters

/-- `z_lock_lock` enters the slow path with no options. -/
def retryLock (self current : Word) (waiters : Bool) : Place := retry false self current waiters

/-- From the return of `z_ulock_wait` to the loop head. -/
def afterWait (ret : ℤ) (waiters : Bool) : Place :=
  if ret < 0 ∧ (-ret = EINTR ∨ -ret = EFAULT) then .readWord waiters
  else if 0 < ret then .readWord true
  else .readWord waiters

/-- From the return of `z_ulock_wake` in `z_lock_unlock`. -/
def afterWake (ret : ℤ) : Place := if ret < 0 ∧ -ret = EINTR then .wake else .idle

structure PortNames (ι : Type*) where
  port : ι → Word
  odd : ∀ i, (port i).getLsbD 0 = true
  gt_one : ∀ i, 1 < port i
  injective : Function.Injective port

structure State (ι : Type*) where
  word : Word
  place : ι → Place
  sleepers : Finset ι

variable {ι : Type*} [DecidableEq ι]

def State.goto (s : State ι) (i : ι) (p : Place) : State ι :=
  { s with place := Function.update s.place i p }

inductive Event (ι : Type*) where
  | lock (i : ι)
  | trylock (i : ι)
  | unlock (i : ι)
  | run (i : ι)
  | sleep (i : ι)
  | waitReturns (i : ι) (ret : ℤ)
  | wakeReturns (i : ι) (ret : ℤ) (woken : Option ι)
  deriving DecidableEq, Repr

def Place.runs : Place → Bool
  | .tryNow | .lockNow | .readWord _ | .swapClear _ _ | .finalSwap _ | .unlockNow => true
  | _ => false

def Place.waits : Place → Bool
  | .wait _ _ => true
  | _ => false

def Place.sleeps : Place → Bool
  | .asleep _ => true
  | _ => false

def Place.inUlockWait : Place → Bool
  | .wait _ _ | .asleep _ | .woken _ _ => true
  | _ => false

def Enabled (s : State ι) : Event ι → Prop
  | .lock i | .trylock i => s.place i = .idle
  | .unlock i => s.place i = .holds
  | .run i => (s.place i).runs = true
  | .sleep i => (s.place i).waits = true
  | .waitReturns i _ => (s.place i).inUlockWait = true
  | .wakeReturns i _ woken => s.place i = .wake ∧ ∀ j ∈ woken, (s.place j).sleeps = true

instance (s : State ι) : (e : Event ι) → Decidable (Enabled s e)
  | .lock i | .trylock i => inferInstanceAs (Decidable (s.place i = .idle))
  | .unlock i => inferInstanceAs (Decidable (s.place i = .holds))
  | .run i => inferInstanceAs (Decidable ((s.place i).runs = true))
  | .sleep i => inferInstanceAs (Decidable ((s.place i).waits = true))
  | .waitReturns i _ => inferInstanceAs (Decidable ((s.place i).inUlockWait = true))
  | .wakeReturns i _ woken =>
    inferInstanceAs (Decidable (s.place i = .wake ∧ ∀ j ∈ woken, (s.place j).sleeps = true))

/-- The atomic steps of z_lock.c. A compare-and-swap does not refresh `current`: the failed
final swap retries with the 0 that ended the loop. -/
def runStep (self : Word) (s : State ι) (i : ι) : State ι :=
  match s.place i with
  | .tryNow => if s.word = 0 then { s with word := self }.goto i .holds else s.goto i .idle
  | .lockNow =>
    if s.word = 0 then { s with word := self }.goto i .holds else s.goto i (.readWord false)
  | .readWord waiters =>
    if s.word ≠ 0 then s.goto i (retryLock self s.word waiters) else s.goto i (.finalSwap waiters)
  | .swapClear current waiters =>
    if s.word = current then
      { s with word := clearBit current }.goto i (.wait (clearBit current) waiters)
    else s.goto i (.readWord waiters)
  | .finalSwap waiters =>
    if s.word = 0 then { s with word := self &&& ~~~waitersMask waiters }.goto i .holds
    else s.goto i (retryLock self 0 waiters)
  | .unlockNow => { s with word := 0 }.goto i (if s.word = self then .idle else .wake)
  | _ => s

def Place.waiters : Place → Bool
  | .readWord w | .swapClear _ w | .wait _ w | .asleep w | .woken _ w | .finalSwap w => w
  | _ => false

def next (P : PortNames ι) (s : State ι) : Event ι → State ι
  | .lock i => s.goto i .lockNow
  | .trylock i => s.goto i .tryNow
  | .unlock i => s.goto i .unlockNow
  | .run i => runStep (P.port i) s i
  | .sleep i =>
    { s with sleepers := insert i s.sleepers }.goto i (.asleep (s.place i).waiters)
  | .waitReturns i ret =>
    { s with sleepers := s.sleepers.erase i }.goto i (afterWait ret (s.place i).waiters)
  | .wakeReturns i ret none => s.goto i (afterWake ret)
  | .wakeReturns i ret (some j) =>
    let sleepers := s.sleepers.erase j
    ({ s with sleepers := sleepers }.goto j (.woken sleepers.card (s.place j).waiters)).goto i
      (afterWake ret)

def Initial (s : State ι) : Prop := s.word = 0 ∧ s.sleepers = ∅ ∧ ∀ i, s.place i = .idle

def lockSystem (P : PortNames ι) : System (State ι) (Event ι) := ⟨Initial, Enabled, next P⟩

instance (P : PortNames ι) (s : State ι) (e : Event ι) :
    Decidable ((lockSystem P).Enabled s e) := inferInstanceAs (Decidable (Enabled s e))

def Place.Holding : Place → Prop
  | .holds | .unlockNow => True
  | _ => False

def Holds (s : State ι) (i : ι) : Prop := (s.place i).Holding

instance : (p : Place) → Decidable p.Holding
  | .holds | .unlockNow => isTrue trivial
  | .idle | .tryNow | .lockNow | .readWord _ | .swapClear _ _ | .wait _ _ | .asleep _
  | .woken _ _ | .finalSwap _ | .wake => isFalse id

instance (s : State ι) (i : ι) : Decidable (Holds s i) :=
  inferInstanceAs (Decidable (Place.Holding _))

theorem clearBit_lsb (x : Word) : (clearBit x).getLsbD 0 = false := by
  simp [clearBit]

theorem clearBit_idem (x : Word) : clearBit (clearBit x) = clearBit x := by
  simp [clearBit, BitVec.and_assoc]

theorem clearBit_zero : clearBit 0 = 0 := by decide

theorem one_getLsbD {k : ℕ} (hk : k ≠ 0) : (1 : Word).getLsbD k = false := by
  rw [show (1 : Word) = 1#32 from rfl, BitVec.getLsbD_one]
  simp [hk]

theorem clearBit_getLsbD (x : Word) {k : ℕ} (hk : k ≠ 0) :
    (clearBit x).getLsbD k = x.getLsbD k := by
  by_cases hw : k < 32
  · rw [clearBit, BitVec.getLsbD_and, BitVec.getLsbD_not, one_getLsbD hk]
    simp [hw]
  · rw [BitVec.getLsbD_of_ge _ _ (by omega), BitVec.getLsbD_of_ge _ _ (by omega)]

theorem eq_of_clearBit_eq {x y : Word} (h : clearBit x = clearBit y)
    (h0 : x.getLsbD 0 = y.getLsbD 0) : x = y := by
  apply BitVec.eq_of_getLsbD_eq
  intro k _
  by_cases hk : k = 0
  · rw [hk, h0]
  · rw [← clearBit_getLsbD x hk, h, clearBit_getLsbD y hk]

/-- Only 0 and 1 lose every bit. -/
theorem clearBit_ne_zero {x : Word} (h : 1 < x) : clearBit x ≠ 0 := by
  intro hz
  cases h0 : x.getLsbD 0 with
  | true =>
    have hone : x = 1 := eq_of_clearBit_eq (hz.trans (by decide)) (h0.trans (by decide))
    exact absurd (hone ▸ h) (by decide)
  | false =>
    have hzero : x = 0 := eq_of_clearBit_eq (hz.trans (by decide)) (h0.trans (by decide))
    exact absurd (hzero ▸ h) (by decide)

section Ports

variable {α : Type*} (P : PortNames α)

theorem PortNames.ne_clearBit (i : α) (x : Word) : P.port i ≠ clearBit x := by
  intro h
  have := congrArg (BitVec.getLsbD · 0) h
  simp only [P.odd i, clearBit_lsb] at this
  cases this

theorem PortNames.ne_zero (i : α) : P.port i ≠ 0 := by
  rw [← clearBit_zero]
  exact P.ne_clearBit i 0

variable {P}

theorem not_retry_holds {i : α} {current : Word} (waiters : Bool) (h : current ≠ P.port i) :
    ¬ (retryLock (P.port i) current waiters).Holding := by
  unfold retryLock retry
  rw [if_neg fun hc => h hc.1]
  split <;> simp [Place.Holding]

/-- The word that `i` leaves in the lock it holds, with or without the no-waiters bit. -/
def WordOf (P : PortNames α) (i : α) (w : Word) : Prop := w = P.port i ∨ w = clearBit (P.port i)

theorem WordOf.ne_zero {i : α} {w : Word} (h : WordOf P i w) : w ≠ 0 := by
  rcases h with rfl | rfl
  · exact P.ne_zero i
  · exact clearBit_ne_zero (P.gt_one i)

theorem WordOf.clear {i : α} {w : Word} (h : WordOf P i w) :
    WordOf P i (clearBit w) := by
  rcases h with rfl | rfl
  · exact .inr rfl
  · exact .inr (clearBit_idem _)

theorem WordOf.not_port {i j : α} (h : WordOf P i (P.port j)) : j = i := by
  rcases h with h | h
  · exact P.injective h
  · exact absurd h (P.ne_clearBit j _)

theorem wordOf_mask (P : PortNames α) (i : α) (waiters : Bool) :
    WordOf P i (P.port i &&& ~~~waitersMask waiters) := by
  cases waiters
  · exact .inl BitVec.and_allOnes
  · right; rfl

def Exclusion (P : PortNames α) (s : State α) : Prop :=
  (s.word = 0 ∧ ∀ i, ¬ Holds s i) ∨ ∃ h, WordOf P h s.word ∧ ∀ i, Holds s i ↔ i = h

theorem Exclusion.ne_port {s : State α} (h : Exclusion P s) {i : α}
    (hi : ¬ Holds s i) : s.word ≠ P.port i := by
  intro hw
  rcases h with ⟨h0, _⟩ | ⟨k, hk, hall⟩
  · exact P.ne_zero i (hw ▸ h0)
  · rw [hw] at hk
    exact hi ((hall i).mpr hk.not_port)

inductive Effect (P : PortNames α) (s s' : State α) : Prop where
  | neutral (word : s'.word = s.word) (holders : ∀ j, Holds s' j ↔ Holds s j)
  | clear (word : s'.word = clearBit s.word) (holders : ∀ j, Holds s' j ↔ Holds s j)
  | acquire (i : α) (free : s.word = 0) (word : WordOf P i s'.word)
      (holders : ∀ j, Holds s' j ↔ Holds s j ∨ j = i)
  | release (i : α) (was : Holds s i) (word : s'.word = 0)
      (holders : ∀ j, Holds s' j ↔ Holds s j ∧ j ≠ i)

theorem Effect.exclusion {s s' : State α} (he : Effect P s s')
    (h : Exclusion P s) : Exclusion P s' := by
  unfold Exclusion at h ⊢
  cases he with
  | neutral hw hh =>
    rw [hw]
    simpa only [hh] using h
  | clear hw hh =>
    rw [hw]
    simp only [hh]
    rcases h with ⟨h0, hn⟩ | ⟨k, hk, hall⟩
    · exact .inl ⟨by rw [h0, clearBit_zero], hn⟩
    · exact .inr ⟨k, hk.clear, hall⟩
  | acquire i free hw hh =>
    rcases h with ⟨_, hn⟩ | ⟨k, hk, _⟩
    · exact .inr ⟨i, hw, fun j => by simp [hh, hn]⟩
    · exact absurd free hk.ne_zero
  | release i was hw hh =>
    rcases h with ⟨_, hn⟩ | ⟨k, _, hall⟩
    · exact absurd was (hn i)
    · obtain rfl := (hall i).mp was
      exact .inl ⟨hw, fun j => by simp [hh, hall]⟩

end Ports

theorem holds_goto (s : State ι) (i j : ι) (p : Place) :
    Holds (s.goto i p) j ↔ if j = i then p.Holding else Holds s j := by
  by_cases h : j = i <;> simp [Holds, State.goto, Place.Holding, h]

theorem holds_goto_of_iff {s : State ι} {i : ι} {p : Place}
    (hp : p.Holding ↔ (s.place i).Holding) (j : ι) : Holds (s.goto i p) j ↔ Holds s j := by
  rw [holds_goto]
  split
  · next h => subst h; exact hp
  · rfl

theorem neutral_goto (P : PortNames ι) {s : State ι} {i : ι} {p : Place}
    (hp : p.Holding ↔ (s.place i).Holding) : Effect P s (s.goto i p) :=
  .neutral rfl (holds_goto_of_iff hp)

theorem acquire_goto {P : PortNames ι} {s : State ι} {i : ι} {w : Word} (free : s.word = 0)
    (hw : WordOf P i w) : Effect P s ({ s with word := w }.goto i .holds) := by
  refine .acquire i free hw fun j => ?_
  rw [holds_goto]
  by_cases hj : j = i <;> simp [hj, Place.Holding, Holds]

theorem run_effect {P : PortNames ι} {s : State ι} (h : Exclusion P s) (i : ι)
    (he : Enabled s (.run i)) : Effect P s (runStep (P.port i) s i) := by
  have he : (s.place i).runs = true := he
  unfold runStep
  cases hp : s.place i <;> rw [hp] at he
  case idle | wait | asleep | woken | holds | wake => cases he
  case tryNow | lockNow =>
    dsimp only
    split
    · next h0 => exact acquire_goto h0 (.inl rfl)
    · exact neutral_goto P (by simp [hp, Place.Holding])
  case readWord waiters =>
    have hne : s.word ≠ P.port i := h.ne_port (by simp [Holds, hp, Place.Holding])
    dsimp only
    split
    · refine neutral_goto P (iff_of_false (not_retry_holds waiters hne) ?_)
      simp [hp, Place.Holding]
    · exact neutral_goto P (by simp [hp, Place.Holding])
  case swapClear current waiters =>
    dsimp only
    split
    · next hw =>
      refine .clear (by simp [State.goto, hw]) fun j => ?_
      rw [holds_goto]
      split
      · next hj => simp [hj, Holds, hp, Place.Holding]
      · rfl
    · exact neutral_goto P (by simp [hp, Place.Holding])
  case finalSwap waiters =>
    dsimp only
    split
    · next h0 => exact acquire_goto h0 (wordOf_mask P i waiters)
    · have h0 : (0 : Word) ≠ P.port i := (P.ne_zero i).symm
      exact neutral_goto P (iff_of_false (not_retry_holds waiters h0) (by simp [hp, Place.Holding]))
  case unlockNow =>
    refine .release i (by simp [Holds, hp, Place.Holding]) rfl fun j => ?_
    rw [holds_goto]
    by_cases hj : j = i
    · have hp' : ¬ (if s.word = P.port i then Place.idle else .wake).Holding := by
        split <;> simp [Place.Holding]
      simp [hj, hp']
    · simp [hj, Holds]

theorem step_effect {P : PortNames ι} {s : State ι} (h : Exclusion P s) (e : Event ι)
    (he : Enabled s e) : Effect P s (next P s e) := by
  cases e with
  | lock i | trylock i | unlock i =>
    have he : s.place i = _ := he
    exact neutral_goto P (by simp [he, Place.Holding])
  | run i => exact run_effect h i he
  | sleep i =>
    have he : (s.place i).waits = true := he
    refine .neutral rfl fun j => holds_goto_of_iff ?_ j
    cases hp : s.place i <;> simp_all [Place.waits, Place.Holding]
  | waitReturns i ret =>
    have he : (s.place i).inUlockWait = true := he
    refine .neutral rfl fun j => holds_goto_of_iff ?_ j
    have hr : ¬ (afterWait ret (s.place i).waiters).Holding := by
      unfold afterWait
      split_ifs <;> simp [Place.Holding]
    cases hp : s.place i <;> simp_all [Place.inUlockWait, Place.Holding]
  | wakeReturns i ret woken =>
    obtain ⟨hi, hj⟩ := he
    have hr : ¬ (afterWake ret).Holding := by
      unfold afterWake
      split <;> simp [Place.Holding]
    cases woken with
    | none => exact neutral_goto P (iff_of_false hr (by simp [hi, Place.Holding]))
    | some j =>
      have hj := hj j rfl
      have hji : i ≠ j := by
        rintro rfl
        simp [hi, Place.sleeps] at hj
      refine .neutral rfl fun k => ?_
      refine (holds_goto_of_iff ?_ k).trans (holds_goto_of_iff ?_ k)
      · exact iff_of_false hr (by simp [State.goto, hji, hi, Place.Holding])
      · cases hp : s.place j <;> simp_all [Place.sleeps, Place.Holding]

theorem exclusion_inductive (P : PortNames ι) :
    Inductive (lockSystem P) anyStep (Exclusion P) where
  initial s h := .inl ⟨h.1, fun i => by simp [Holds, h.2.2 i, Place.Holding]⟩
  step s e h he _ := (step_effect h e he).exclusion h

theorem exclusion_reachable {P : PortNames ι} {s : State ι} (h : Reachable (lockSystem P) s) :
    Exclusion P s := (exclusion_inductive P).reachable h

/-- Mutual exclusion, whatever the kernel returns, and a word that is 0 just when the lock is
free. -/
theorem mutual_exclusion {P : PortNames ι} {s : State ι} (h : Reachable (lockSystem P) s) :
    (∀ i j, Holds s i → Holds s j → i = j) ∧ (s.word = 0 ↔ ∀ i, ¬ Holds s i) := by
  rcases exclusion_reachable h with ⟨h0, hn⟩ | ⟨k, hk, hall⟩
  · exact ⟨fun i _ hi => absurd hi (hn i), by simp [h0, hn]⟩
  · refine ⟨fun i j hi hj => ((hall i).mp hi).trans ((hall j).mp hj).symm, ?_⟩
    exact ⟨fun h0 => absurd h0 hk.ne_zero, fun hn => absurd ((hall k).mpr rfl) (hn k)⟩

def twoPorts : PortNames (Fin 2) where
  port i := if i = 0 then 0x103 else 0x205
  odd := by decide
  gt_one := by decide
  injective := by unfold Function.Injective; decide

def free : State (Fin 2) := ⟨0, fun _ => .idle, ∅⟩

theorem mutual_exclusion_contended :
    let s := runTrace (lockSystem twoPorts) free
      [.lock 0, .run 0, .lock 1, .run 1, .run 1, .run 1, .sleep 1]
    s.word = 0x102 ∧ Holds s 0 ∧
      (∀ i j, Holds s i → Holds s j → i = j) ∧ (s.word = 0 ↔ ∀ i, ¬ Holds s i) :=
  ⟨by decide, by decide, mutual_exclusion
    (valid_trace_reachable ⟨rfl, rfl, fun _ => rfl⟩ (by decide))⟩

end UnfairLock

import LibSystemCall.UnfairLock

/-! # Who wakes a sleeper on the unfair lock

The kernel side of `z_ulock_wait` and `z_ulock_wake`, and which thread owes a wake-up to the
sleepers while the lock is free. -/
namespace UnfairLock

open GuardedSystem

variable {ι : Type*}

def Place.current : Place → Option Word
  | .wait c _ => some c
  | _ => none

def Place.remaining : Place → Option ℕ
  | .woken r _ => some r
  | _ => none

/-- What the kernel may do: sleep only on an unchanged word, return from a sleep only after a
wake, with the number of waiters left then or at the return, and report a wake of nobody only
as interrupted or without sleepers. -/
def KernelStep (s : State ι) : Event ι → Prop
  | .sleep i => (s.place i).current = some s.word
  | .waitReturns i ret =>
    (∃ c ∈ (s.place i).current, s.word ≠ c) ∨
      ∃ r ∈ (s.place i).remaining, ret = r ∨ ret = s.sleepers.card
  | .wakeReturns _ ret (some _) => 0 ≤ ret
  | .wakeReturns _ ret none => ret = -EINTR ∨ s.sleepers = ∅
  | _ => True

def Place.Executing : Place → Prop
  | .idle | .tryNow | .asleep _ | .holds => False
  | _ => True

/-- A sleeper on a free lock that no thread will wake. -/
def Abandoned (s : State ι) : Prop :=
  s.word = 0 ∧ (∃ i, (s.place i).sleeps = true) ∧ ∀ i, ¬ (s.place i).Executing

/-- No thread goes to sleep with the 0 that a failed final swap leaves in `current`. -/
def FreshSleep (s : State ι) : Event ι → Prop
  | .sleep i => (s.place i).current ≠ some 0
  | _ => True

/-- The thread will wake a sleeper, or take the lock with the no-waiters bit cleared. -/
def Place.Responsible : Place → Prop
  | .wake => True
  | .woken remaining waiters => 0 < remaining ∨ waiters = true
  | .readWord waiters | .swapClear _ waiters | .wait _ waiters | .finalSwap waiters =>
    waiters = true
  | _ => False

def Warns (w : Word) : Prop := w ≠ 0 ∧ clearBit w = w

def Place.WaitsCleared : Place → Prop
  | .wait c _ => clearBit c = c
  | _ => True

structure Wakeful (P : PortNames ι) (s : State ι) : Prop where
  exclusion : Exclusion P s
  sleepers : ∀ j, j ∈ s.sleepers ↔ (s.place j).sleeps = true
  cleared : ∀ j, (s.place j).WaitsCleared
  covered : s.sleepers ≠ ∅ → Warns s.word ∨ ∃ j, (s.place j).Responsible

theorem WordOf.warns_clear {P : PortNames ι} {i : ι} {w : Word} (h : WordOf P i w) :
    Warns (clearBit w) := ⟨h.clear.ne_zero, clearBit_idem w⟩

structure Keeps (w : Word) (p : Place) (w' : Word) (q : Place) : Prop where
  awake : q.sleeps = false
  cleared : q.WaitsCleared
  covers : Warns w ∨ p.Responsible → Warns w' ∨ q.Responsible

theorem retry_keeps {P : PortNames ι} {i : ι} {current w : Word} {p : Place} {waiters : Bool}
    (hne : current ≠ P.port i) (hp : p.Responsible → waiters = true) :
    Keeps w p w (retryLock (P.port i) current waiters) := by
  unfold retryLock retry
  rw [if_neg fun hc => hne hc.1]
  split
  · exact ⟨rfl, trivial, Or.imp_right hp⟩
  · next hc => exact ⟨rfl, (not_not.mp hc).symm, Or.imp_right hp⟩

variable [DecidableEq ι]

theorem run_keeps {P : PortNames ι} {s : State ι} (h : Exclusion P s) {i : ι}
    (he : Enabled s (.run i)) :
    ∃ w p, runStep (P.port i) s i = ({ s with word := w } : State ι).goto i p ∧
      Keeps s.word (s.place i) w p := by
  have he : (s.place i).runs = true := he
  unfold runStep
  cases hp : s.place i <;> rw [hp] at he
  case idle | wait | asleep | woken | holds | wake => cases he
  case tryNow | lockNow =>
    dsimp only
    split
    · next h0 => exact ⟨_, _, rfl, rfl, trivial, by simp [Warns, h0, Place.Responsible]⟩
    · exact ⟨s.word, _, rfl, rfl, trivial, by simp [Place.Responsible]⟩
  case readWord waiters =>
    have hne : s.word ≠ P.port i := h.ne_port (by simp [Holds, hp, Place.Holding])
    dsimp only
    split
    · exact ⟨s.word, _, rfl, retry_keeps hne id⟩
    · exact ⟨s.word, _, rfl, rfl, trivial, id⟩
  case swapClear current waiters =>
    dsimp only
    split
    · next hw =>
      refine ⟨_, _, rfl, rfl, clearBit_idem _, Or.imp_left fun hc => ?_⟩
      rw [← hw, hc.2]
      exact hc
    · exact ⟨s.word, _, rfl, rfl, trivial, id⟩
  case finalSwap waiters =>
    dsimp only
    split
    · next h0 =>
      refine ⟨_, _, rfl, rfl, trivial, ?_⟩
      rintro (hc | hc)
      · exact absurd h0 hc.1
      · -- the mask clears the bit for the waiters behind this thread
        obtain rfl : waiters = true := hc
        exact .inl (WordOf.warns_clear (.inl rfl))
    · exact ⟨s.word, _, rfl, retry_keeps (P.ne_zero i).symm id⟩
  case unlockNow =>
    refine ⟨_, _, rfl, by split <;> rfl, by split <;> trivial, ?_⟩
    rintro (hc | hc)
    · have hw : s.word ≠ P.port i := fun hw => P.ne_clearBit i s.word (hw.symm.trans hc.2.symm)
      rw [if_neg hw]
      exact .inr trivial
    · cases hc

theorem covered_goto {s : State ι} {i : ι} {w : Word} {p : Place}
    (hk : Warns s.word ∨ (s.place i).Responsible → Warns w ∨ p.Responsible)
    (h : Warns s.word ∨ ∃ j, (s.place j).Responsible) :
    Warns w ∨ ∃ j, (Function.update s.place i p j).Responsible := by
  have hi : (Warns w ∨ p.Responsible) →
      Warns w ∨ ∃ j, (Function.update s.place i p j).Responsible :=
    Or.imp_right fun hp => ⟨i, by simpa using hp⟩
  rcases h with h | ⟨j, hj⟩
  · exact hi (hk (.inl h))
  · by_cases hji : j = i
    · subst hji
      exact hi (hk (.inr hj))
    · exact .inr ⟨j, by simpa [hji] using hj⟩

theorem Wakeful.move {P : PortNames ι} {s : State ι} {i : ι} {w : Word} {p : Place}
    (h : Wakeful P s) (hi : (s.place i).sleeps = false) (hp : p.sleeps = false)
    (hcl : p.WaitsCleared)
    (hk : s.sleepers ≠ ∅ → Warns s.word ∨ (s.place i).Responsible → Warns w ∨ p.Responsible)
    (hx : Exclusion P (({ s with word := w } : State ι).goto i p)) :
    Wakeful P (({ s with word := w } : State ι).goto i p) where
  exclusion := hx
  sleepers j := by
    by_cases hj : j = i
    · simp [State.goto, hj, hp, h.sleepers, hi]
    · simpa [State.goto, hj] using h.sleepers j
  cleared j := by
    by_cases hj : j = i
    · simpa [State.goto, hj] using hcl
    · simpa [State.goto, hj] using h.cleared j
  covered hs := covered_goto (s := s) (hk hs) (h.covered hs)

theorem Wakeful.sleep {P : PortNames ι} {s : State ι} {i : ι} {c : Word} {w : Bool}
    (h : Wakeful P s) (hi : s.place i = .wait c w) (hw : s.word = c) (hc : c ≠ 0)
    (hx : Exclusion P (next P s (.sleep i))) : Wakeful P (next P s (.sleep i)) where
  exclusion := hx
  sleepers j := by
    by_cases hj : j = i
    · simp [next, State.goto, hj, Place.sleeps]
    · simpa [next, State.goto, hj] using h.sleepers j
  cleared j := by
    by_cases hj : j = i
    · simp [next, State.goto, hj, Place.WaitsCleared]
    · simpa [next, State.goto, hj] using h.cleared j
  covered _ := by
    have hcl := h.cleared i
    rw [hi] at hcl
    exact .inl ⟨by rwa [← hw] at hc, by rw [← hw] at hcl; exact hcl⟩

theorem Wakeful.wake {P : PortNames ι} {s : State ι} {i j : ι} {ret : ℤ}
    (h : Wakeful P s) (hi : s.place i = .wake) (hj : (s.place j).sleeps = true)
    (hret : 0 ≤ ret) (hx : Exclusion P (next P s (.wakeReturns i ret (some j)))) :
    Wakeful P (next P s (.wakeReturns i ret (some j))) := by
  have hij : i ≠ j := by
    rintro rfl
    simp [hi, Place.sleeps] at hj
  have hidle : afterWake ret = .idle := if_neg fun hc => absurd hc.1 (by omega)
  refine ⟨hx, fun k => ?_, fun k => ?_, fun hs => .inr ⟨j, ?_⟩⟩
  · by_cases hki : k = i
    · simp [next, State.goto, hki, hidle, Place.sleeps, h.sleepers, hi]
    · by_cases hkj : k = j
      · simp [next, State.goto, hkj, hij.symm, Place.sleeps]
      · simpa [next, State.goto, hki, hkj] using h.sleepers k
  · by_cases hki : k = i
    · simp [next, State.goto, hki, hidle, Place.WaitsCleared]
    · by_cases hkj : k = j
      · simp [next, State.goto, hkj, hij.symm, Place.WaitsCleared]
      · simpa [next, State.goto, hki, hkj] using h.cleared k
  · have hcard : 0 < (s.sleepers.erase j).card :=
      Finset.card_pos.mpr (Finset.nonempty_iff_ne_empty.mpr hs)
    simpa [next, State.goto, hij.symm, Place.Responsible] using Or.inl hcard

theorem afterWait_awake (ret : ℤ) (waiters : Bool) :
    (afterWait ret waiters).sleeps = false ∧ (afterWait ret waiters).WaitsCleared := by
  unfold afterWait
  split_ifs <;> exact ⟨rfl, trivial⟩

theorem afterWait_responsible {ret : ℤ} {waiters : Bool} (h : 0 < ret ∨ waiters = true) :
    (afterWait ret waiters).Responsible := by
  unfold afterWait
  split_ifs with h1 h2
  · exact h.resolve_left fun hr => by omega
  · rfl
  · exact h.resolve_left h2

theorem wakeful_step {P : PortNames ι} {s : State ι} {e : Event ι} (h : Wakeful P s)
    (he : Enabled s e) (hk : KernelStep s e) (hf : FreshSleep s e) : Wakeful P (next P s e) := by
  have hx := (step_effect h.exclusion e he).exclusion h.exclusion
  cases e with
  | lock i | trylock i | unlock i =>
    have he : s.place i = _ := he
    exact h.move (by rw [he]; rfl) rfl trivial (by simp [he, Place.Responsible]) hx
  | run i =>
    obtain ⟨w, p, hr, hkeep⟩ := run_keeps h.exclusion he
    have hi : (s.place i).sleeps = false := by
      have he : (s.place i).runs = true := he
      cases hp : s.place i <;> rw [hp] at he <;> first | rfl | cases he
    simp only [next, hr] at hx ⊢
    exact h.move hi hkeep.awake hkeep.cleared (fun _ => hkeep.covers) hx
  | sleep i =>
    cases hp : s.place i <;> simp only [KernelStep, FreshSleep, hp] at hk hf <;> cases hk
    case wait.refl w => exact h.sleep hp rfl (fun h0 => hf (by rw [h0]; rfl)) hx
  | waitReturns i ret =>
    have hi : (s.place i).sleeps = false := by
      cases hp : s.place i
      all_goals
        first
        | rfl
        | simp [KernelStep, hp, Place.current, Place.remaining] at hk
    have herase : s.sleepers.erase i = s.sleepers :=
      Finset.erase_eq_of_notMem (by simp [h.sleepers, hi])
    obtain ⟨hawake, hclear⟩ := afterWait_awake ret (s.place i).waiters
    simp only [next, herase] at hx ⊢
    refine h.move hi hawake hclear (fun hs => Or.imp_right fun hresp => ?_) hx
    apply afterWait_responsible
    rcases hk with ⟨c, hc, _⟩ | ⟨r, hr, hret⟩
    · cases hp : s.place i <;> simp only [hp, Place.current] at hc <;> cases hc
      case wait.refl => rw [hp] at hresp; exact .inr hresp
    · -- a positive count of waiters at the wake or, now, of those still asleep
      have hcard : 0 < s.sleepers.card := Finset.card_pos.mpr (Finset.nonempty_iff_ne_empty.mpr hs)
      cases hp : s.place i <;> simp only [hp, Place.remaining] at hr <;> cases hr
      case woken.refl w =>
        rw [hp] at hresp
        rcases hresp with hpos | hw
        · exact .inl (by omega)
        · exact .inr hw
  | wakeReturns i ret woken =>
    obtain ⟨hi, hj⟩ := he
    cases woken with
    | none =>
      refine h.move (by rw [hi]; rfl) ?_ ?_ (fun hs _ => .inr ?_) hx
      · unfold afterWake; split <;> rfl
      · unfold afterWake; split <;> trivial
      · have hret : ret = -EINTR := hk.resolve_right hs
        rw [hret]
        trivial
    | some j => exact h.wake hi (hj j rfl) hk hx

def freshKernelStep (s : State ι) (e : Event ι) : Prop := KernelStep s e ∧ FreshSleep s e

theorem wakeful_inductive (P : PortNames ι) :
    Inductive (lockSystem P) freshKernelStep (Wakeful P) where
  initial s h :=
    { exclusion := (exclusion_inductive P).initial s h
      sleepers := fun j => by simp [h.2.1, h.2.2 j, Place.sleeps]
      cleared := fun j => by simp [h.2.2 j, Place.WaitsCleared]
      covered := fun hs => absurd h.2.1 hs }
  step _ _ h he hg := wakeful_step h he hg.1 hg.2

theorem Place.Responsible.executing {p : Place} (h : p.Responsible) : p.Executing := by
  cases p <;> simp_all [Place.Responsible, Place.Executing]

/-- No sleeper is abandoned in a run whose threads never sleep on a stale 0. -/
theorem fresh_sleep_not_abandoned {P : PortNames ι} {s : State ι}
    (h : ReachableUnder (lockSystem P) freshKernelStep s) : ¬ Abandoned s := by
  rintro ⟨h0, ⟨i, hi⟩, hidle⟩
  have hw := (wakeful_inductive P).reachable h
  have hs : s.sleepers ≠ ∅ := Finset.ne_empty_of_mem ((hw.sleepers i).mpr hi)
  rcases hw.covered hs with hword | ⟨j, hj⟩
  · exact hword.1 h0
  · exact hidle j hj.executing

/-! The three-way race: thread 1 reads 0, thread 0 takes the lock, the final swap of thread 1
fails and it sleeps on the 0 it read once thread 0 has unlocked without a wake-up. -/

instance (s : State ι) : (e : Event ι) → Decidable (KernelStep s e)
  | .lock _ | .trylock _ | .unlock _ | .run _ => isTrue trivial
  | .sleep i => inferInstanceAs (Decidable ((s.place i).current = some s.word))
  | .waitReturns i ret => inferInstanceAs (Decidable ((∃ c ∈ (s.place i).current, s.word ≠ c) ∨
      ∃ r ∈ (s.place i).remaining, ret = r ∨ ret = s.sleepers.card))
  | .wakeReturns _ ret (some _) => inferInstanceAs (Decidable (0 ≤ ret))
  | .wakeReturns _ ret none => inferInstanceAs (Decidable (ret = -EINTR ∨ s.sleepers = ∅))

instance : (p : Place) → Decidable p.Executing
  | .idle | .tryNow | .asleep _ | .holds => isFalse id
  | .lockNow | .readWord _ | .swapClear _ _ | .wait _ _ | .woken _ _ | .finalSwap _
  | .unlockNow | .wake => isTrue trivial

instance (s : State (Fin 2)) : Decidable (Abandoned s) :=
  inferInstanceAs (Decidable (s.word = 0 ∧ (∃ i, (s.place i).sleeps = true) ∧ _))

theorem stale_zero_abandons_sleeper :
    ∃ s, ReachableUnder (lockSystem twoPorts) KernelStep s ∧ Abandoned s :=
  ⟨runTrace (lockSystem twoPorts) free
      [.lock 0, .run 0, .lock 1, .run 1, .unlock 0, .run 0, .run 1, .lock 0, .run 0, .run 1,
       .unlock 0, .run 0, .sleep 1],
    valid_trace_reachable ⟨rfl, rfl, fun _ => rfl⟩ (by decide), by decide⟩

instance (s : State ι) : (e : Event ι) → Decidable (FreshSleep s e)
  | .sleep i => inferInstanceAs (Decidable ((s.place i).current ≠ some 0))
  | .lock _ | .trylock _ | .unlock _ | .run _ | .waitReturns _ _ | .wakeReturns _ _ _ =>
    isTrue trivial

instance (s : State ι) (e : Event ι) : Decidable (freshKernelStep s e) :=
  inferInstanceAs (Decidable (KernelStep s e ∧ FreshSleep s e))

theorem fresh_sleep_before_wake :
    let s := runTrace (lockSystem twoPorts) free
      [.lock 0, .run 0, .lock 1, .run 1, .run 1, .run 1, .sleep 1, .unlock 0, .run 0]
    s.word = 0 ∧ (s.place 1).sleeps = true ∧ ¬ Abandoned s :=
  ⟨by decide, by decide, fresh_sleep_not_abandoned
    (valid_trace_reachable ⟨rfl, rfl, fun _ => rfl⟩ (by decide))⟩

end UnfairLock

import LibSystemCall.AtexitTable
import Mathlib.Data.List.Range
import Mathlib.Data.List.Nodup
import Mathlib.Data.List.Perm.Subperm

/-! # What z_cxa_finalize calls, and in which order -/
namespace AtexitFinalize

open GuardedSystem AtexitTable

def handlers (s : State) : List AtexitFn := flat s.table.blocks

def Uncalled (s : State) (k : ℕ) : Prop := k < (handlers s).length ∧ k ∉ s.called

def Returns (s : State) (e : Event) : Prop :=
  (next s e).loops = [] ∧
    match e with
    | .register _ => False
    | .finalizeRanges ranges => ranges = [] ∧ s.loops = []
    | .handlerReturns => s.loops.map Loop.ranges = [[]]

def AllCalled (s : State) : Prop := s.called.Perm (List.range (handlers s).length)

structure CallInvariant (r : Registry) : Prop where
  cleared : ∀ k fn, r.handlers[k]? = some fn → (fn.fnType = .empty ↔ k ∈ r.called)
  registered : ∀ k ∈ r.called, k < r.handlers.length
  nodup : r.called.Nodup
  loops : ∀ l ∈ r.loops, l.2 ∈ r.called

theorem due_not_empty {ranges : List Range} {fn : AtexitFn} (h : due ranges fn = true) :
    fn.fnType ≠ .empty := by
  intro he
  simp [due, he] at h

theorem due_all {fn : AtexitFn} : due [] fn = true ↔ fn.fnType ≠ .empty := by
  unfold due
  cases fn.fnType <;> simp

variable {r : Registry}

theorem CallInvariant.not_called (h : CallInvariant r) {ranges : List Range} {k : ℕ}
    (hk : r.handlers[k]?.any (due ranges) = true) : k < r.handlers.length ∧ k ∉ r.called := by
  cases hfn : r.handlers[k]? with
  | none => simp [hfn] at hk
  | some fn =>
    rw [hfn, Option.any_some] at hk
    refine ⟨(List.getElem?_eq_some_iff.mp hfn).1, fun hc => ?_⟩
    exact due_not_empty hk ((h.cleared k fn hfn).mpr hc)

theorem CallInvariant.passed (h : CallInvariant r) {k : ℕ} (hlt : k < r.handlers.length)
    (hk : r.handlers[k]?.any (due []) = false) : k ∈ r.called := by
  have hfn := List.getElem?_eq_getElem hlt
  rw [hfn, Option.any_some] at hk
  refine (h.cleared k _ hfn).mp ?_
  by_contra he
  rw [due_all.mpr he] at hk
  cases hk

theorem CallInvariant.proceed (h : CallInvariant r) {ranges : List Range}
    {rest : List (List Range × ℕ)} {o : Option ℕ} (hrest : ∀ l ∈ rest, l ∈ r.loops)
    (ho : ∀ k, o = some k → r.handlers[k]?.any (due ranges) = true) :
    CallInvariant (r.proceed ranges rest o) := by
  cases o with
  | none => exact ⟨h.cleared, h.registered, h.nodup, fun l hl => h.loops l (hrest l hl)⟩
  | some k =>
    obtain ⟨hlt, hnot⟩ := h.not_called (ho k rfl)
    refine ⟨fun j fn hj => ?_, fun j hj => ?_, ?_, fun l hl => ?_⟩
    · simp only [Registry.proceed, List.mem_append, List.mem_singleton] at hj ⊢
      by_cases hjk : j = k
      · subst hjk
        rw [List.getElem?_modify_eq, List.getElem?_eq_getElem hlt] at hj
        obtain rfl := Option.some.inj hj
        exact iff_of_true rfl (.inr rfl)
      · rw [List.getElem?_modify_ne _ _ (Ne.symm hjk)] at hj
        rw [h.cleared j fn hj, or_iff_left hjk]
    · rw [Registry.proceed, List.length_modify]
      rcases List.mem_append.mp hj with hj | hj
      · exact h.registered j hj
      · rwa [List.mem_singleton.mp hj]
    · refine List.nodup_append.mpr ⟨h.nodup, List.nodup_singleton k, fun a ha b hb hab => ?_⟩
      rw [hab, List.mem_singleton.mp hb] at ha
      exact hnot ha
    · rcases List.mem_cons.mp hl with rfl | hl
      · exact List.mem_append_right _ (List.mem_singleton_self k)
      · exact List.mem_append_left _ (h.loops l (hrest l hl))

theorem CallInvariant.next (h : CallInvariant r) {e : Event}
    (he : ∀ fn, e = .register fn → fn.fnType ≠ .empty) : CallInvariant (r.next e) := by
  cases e with
  | register fn =>
    refine ⟨fun k fn' hk => ?_, fun k hk => ?_, h.nodup, h.loops⟩
    · simp only [Registry.next] at hk ⊢
      by_cases hlt : k < r.handlers.length
      · rw [List.getElem?_append_left hlt] at hk
        exact h.cleared k fn' hk
      · rw [List.getElem?_append_right (Nat.le_of_not_lt hlt)] at hk
        obtain rfl := List.mem_singleton.mp (List.mem_of_getElem? hk)
        exact iff_of_false (he _ rfl) fun hc => hlt (h.registered k hc)
    · rw [Registry.next, List.length_append]
      exact Nat.lt_add_right _ (h.registered k hk)
  | finalizeRanges ranges =>
    exact h.proceed (fun _ hl => hl) fun k hk => (scanFns_some hk).2.1
  | handlerReturns =>
    obtain ⟨handlers, flag, loops, called⟩ := r
    cases loops with
    | nil => exact h
    | cons l rest =>
      exact h.proceed (fun _ hl => List.mem_cons_of_mem l hl) fun k hk => (scanFns_some hk).2.1

/-- A state of the code whose registry meets `CallInvariant`. -/
def Counted (s : State) : Prop := ∃ r, Abstracts s r ∧ CallInvariant r

theorem counted_inductive (G : State → Event → Prop) : Inductive atexitSystem G Counted where
  initial s hs := by
    subst hs
    exact ⟨_, abstracts_initial, by simp, by simp, List.nodup_nil, by simp⟩
  step s e := by
    rintro ⟨r, ha, hr⟩ he -
    refine ⟨r.next e, ha.next e, hr.next ?_⟩
    rintro fn rfl
    exact he

/-- Every handler above the place of the loop has been called. -/
def Walked (r : Registry) (k : ℕ) : Prop :=
  ∀ j, k < j → j < r.handlers.length → j ∈ r.called

def CalledFrom (r : Registry) (i : ℕ) : Prop :=
  ∀ j, i ≤ j → j < r.handlers.length → j ∈ r.called

theorem calledFrom_length (r : Registry) : CalledFrom r r.handlers.length :=
  fun _ hj hlt => absurd hlt (Nat.not_lt.mpr hj)

theorem calledFrom_start {k : ℕ} (hk : k ∈ r.called)
    (hseen : r.newRegistration = true ∨ Walked r k) :
    CalledFrom r (if r.newRegistration then r.handlers.length else k) := by
  intro j hj hlt
  by_cases hflag : r.newRegistration = true
  · rw [if_pos hflag] at hj
    omega
  · rw [if_neg hflag] at hj
    rcases Nat.lt_or_eq_of_le hj with hj | rfl
    · exact hseen.resolve_left hflag j hj hlt
    · exact hk

theorem CallInvariant.drained (h : CallInvariant r) {i : ℕ}
    (habove : CalledFrom r i)
    (hnone : scanFns [] r.handlers i = none) : ∀ j < r.handlers.length, j ∈ r.called := by
  intro j hj
  by_cases hi : j < i
  · exact h.passed hj (scanFns_none hnone j hi)
  · exact habove j (Nat.le_of_not_lt hi) hj

theorem CallInvariant.newest (h : CallInvariant r) {i k : ℕ}
    (habove : CalledFrom r i)
    (hsome : scanFns [] r.handlers i = some k) :
    (k < r.handlers.length ∧ k ∉ r.called) ∧ Walked r k := by
  obtain ⟨-, hdue, hbetween⟩ := scanFns_some hsome
  refine ⟨h.not_called hdue, fun j hj hlt => ?_⟩
  by_cases hi : j < i
  · exact h.passed hlt (hbetween j hj hi)
  · exact habove j (Nat.le_of_not_lt hi) hlt

theorem CallInvariant.perm (h : CallInvariant r) (hall : ∀ j < r.handlers.length, j ∈ r.called) :
    r.called.Perm (List.range r.handlers.length) := by
  rw [List.perm_ext_iff_of_nodup h.nodup List.nodup_range]
  intro j
  rw [List.mem_range]
  exact ⟨h.registered j, hall j⟩

theorem proceed_loops {ranges : List Range} {rest : List (List Range × ℕ)} {o : Option ℕ}
    (h : (r.proceed ranges rest o).loops = []) : o = none ∧ rest = [] := by
  cases o with
  | none => exact ⟨rfl, h⟩
  | some k => simp [Registry.proceed] at h

theorem registered_next (s : State) (fn : AtexitFn) :
    handlers (next s (.register fn)) = handlers s ++ [fn] := by
  obtain ⟨t, ht, hr⟩ := register_registered s.table fn
  rw [next, ht]
  exact hr.flat

theorem allCalled_of_abstracts {s : State} (ha : Abstracts s r)
    (h : r.called.Perm (List.range r.handlers.length)) : AllCalled s := by
  rw [AllCalled, handlers, ← ha.called, ← ha.handlers]
  exact h

theorem no_loops_iff {s : State} (ha : Abstracts s r) : s.loops = [] ↔ r.loops = [] := by
  have hlen := ha.loops.length_eq
  rw [← List.length_eq_zero_iff, hlen, List.length_eq_zero_iff]

theorem outermost_iff {s : State} (ha : Abstracts s r) :
    s.loops.map Loop.ranges = [[]] ↔ ∃ k, r.loops = [([], k)] := by
  have hranges : s.loops.map Loop.ranges = r.loops.map Prod.fst := by
    rw [← List.forall₂_eq_eq_eq, List.forall₂_map_left_iff, List.forall₂_map_right_iff]
    exact ha.loops.imp fun _ _ hl => hl.1
  rw [hranges]
  constructor
  · intro h
    obtain ⟨p, hp, hfst⟩ := List.map_eq_singleton_iff.mp h
    exact ⟨p.2, by rw [hp, ← hfst]⟩
  · rintro ⟨k, hk⟩
    rw [hk]
    rfl

theorem allCalled_of_returns {s : State} {e : Event} (h : CallInvariant r) (ha : Abstracts s r)
    (hseen : ∀ k, e = .handlerReturns → r.loops = [([], k)] →
      r.newRegistration = true ∨ Walked r k) (hret : Returns s e) : AllCalled (next s e) := by
  obtain ⟨hend, he⟩ := hret
  have hnext := ha.next e
  rw [no_loops_iff hnext] at hend
  refine allCalled_of_abstracts hnext ?_
  cases e with
  | register fn => exact he.elim
  | finalizeRanges ranges =>
    obtain ⟨rfl, -⟩ := he
    obtain ⟨hnone, -⟩ := proceed_loops hend
    rw [Registry.next, hnone]
    exact h.perm (h.drained (calledFrom_length r) hnone)
  | handlerReturns =>
    obtain ⟨k, hloops⟩ := (outermost_iff ha).mp he
    have hstep : r.next .handlerReturns = r.proceed [] [] (r.nextDue [] k) := by
      rw [Registry.next, hloops]
    rw [hstep] at hend ⊢
    obtain ⟨hnone, -⟩ := proceed_loops hend
    rw [hnone]
    have hmem : k ∈ r.called := h.loops ([], k) (by rw [hloops]; exact List.mem_singleton_self _)
    exact h.perm (h.drained (calledFrom_start hmem (hseen k rfl hloops)) hnone)

/-- A state, and how many handlers were registered when the outermost loop called the handler
that it waits for. -/
structure Tracked where
  state : State
  seen : ℕ

def seenAfter (s : State) (e : Event) (seen : ℕ) : ℕ :=
  if (next s e).loops.length = 1 ∧ (next s e).called ≠ s.called then (handlers s).length else seen

def trackedSystem : System Tracked Event where
  Initial t := t = ⟨initial, 0⟩
  Enabled t e := Enabled t.state e
  next t e := ⟨next t.state e, seenAfter t.state e t.seen⟩

/-- When a handler returns to an outermost `z_cxa_finalize(NULL)` and the flag is clear, everything
registered while it ran has been called. -/
def registrationsSeen (t : Tracked) : Event → Prop
  | .handlerReturns =>
    t.state.loops.map Loop.ranges = [[]] → t.state.newRegistration = true ∨
      ∀ k < (handlers t.state).length, t.seen ≤ k → k ∈ t.state.called
  | _ => True

theorem tracked_run {G : Tracked → Event → Prop} {t : Tracked}
    (h : ReachableUnder trackedSystem G t) : Reachable atexitSystem t.state := by
  obtain ⟨t₀, rfl, hrun⟩ := h
  induction hrun with
  | refl => exact .initial rfl
  | tail _ he _ ih => exact ih.step he trivial

theorem run_tracked {s : State} (h : Reachable atexitSystem s) :
    ∃ seen, Reachable trackedSystem ⟨s, seen⟩ := by
  obtain ⟨s₀, rfl, hrun⟩ := h
  induction hrun with
  | refl => exact ⟨0, .initial rfl⟩
  | @tail s e _ he _ ih =>
    obtain ⟨seen, hseen⟩ := ih
    exact ⟨seenAfter s e seen, ReachableUnder.step (S := trackedSystem) hseen he trivial⟩

/-- What an outermost `z_cxa_finalize(NULL)` had passed when it called its handler has been
called. -/
def OuterPassed (r : Registry) (seen : ℕ) : Prop :=
  ∀ k, r.loops.getLast? = some ([], k) → ∀ j, k < j → j < seen → j ∈ r.called

theorem OuterPassed.proceed {seen : ℕ} (h : OuterPassed r seen) {ranges : List Range}
    {rest : List (List Range × ℕ)} {o : Option ℕ}
    (hrest : rest ≠ [] → rest.getLast? = r.loops.getLast?)
    (hwalked : ranges = [] → rest = [] → ∀ k, o = some k → Walked r k) :
    OuterPassed (r.proceed ranges rest o)
      (if (r.proceed ranges rest o).loops.length = 1 ∧ (r.proceed ranges rest o).called ≠ r.called
        then r.handlers.length else seen) := by
  cases o with
  | none =>
    rw [if_neg fun hcalled => hcalled.2 rfl]
    intro k hk
    refine h k ((hrest ?_).symm.trans hk)
    rintro rfl
    cases hk
  | some k =>
    have hgrown : r.called ++ [k] ≠ r.called := by simp
    by_cases hnil : rest = []
    · subst hnil
      rw [if_pos ⟨rfl, hgrown⟩]
      intro k' hk' j hj hlt
      obtain ⟨rfl, rfl⟩ := Prod.mk.inj (Option.some.inj hk')
      exact List.mem_append_left _ (hwalked rfl rfl _ rfl j hj hlt)
    · have hlength : ((ranges, k) :: rest).length ≠ 1 := by
        simpa [List.length_eq_zero_iff] using hnil
      rw [if_neg fun hcalled => hlength hcalled.1]
      intro k' hk' j hj hlt
      refine List.mem_append_left _ (h k' ?_ j hj hlt)
      rw [← hrest hnil, ← hk', Registry.proceed, List.getLast?_cons_of_ne_nil hnil]

theorem seenAfter_eq {s : State} (ha : Abstracts s r) (e : Event) (seen : ℕ) :
    seenAfter s e seen = if (r.next e).loops.length = 1 ∧ (r.next e).called ≠ r.called
      then r.handlers.length else seen := by
  have hnext := ha.next e
  rw [seenAfter, hnext.loops.length_eq, hnext.called, ha.called, handlers, ha.handlers]

structure TrackedInvariant (t : Tracked) (r : Registry) : Prop where
  abstracts : Abstracts t.state r
  counted : CallInvariant r
  passed : OuterPassed r t.seen

theorem TrackedInvariant.goesOn {t : Tracked} (h : TrackedInvariant t r)
    (hg : registrationsSeen t .handlerReturns) {k : ℕ} (hloops : r.loops = [([], k)]) :
    r.newRegistration = true ∨ Walked r k := by
  have hseen := hg ((outermost_iff h.abstracts).mpr ⟨k, hloops⟩)
  rw [← h.abstracts.newRegistration, handlers, ← h.abstracts.handlers, ← h.abstracts.called]
    at hseen
  refine hseen.imp id fun hlate j hj hlt => ?_
  by_cases hearly : j < t.seen
  · exact h.passed k (by rw [hloops]; rfl) j hj hearly
  · exact hlate j hlt (Nat.le_of_not_lt hearly)

theorem TrackedInvariant.next {t : Tracked} (h : TrackedInvariant t r) {e : Event}
    (he : Enabled t.state e) (hg : registrationsSeen t e) :
    TrackedInvariant (trackedSystem.next t e) (r.next e) := by
  refine ⟨h.abstracts.next e, h.counted.next ?_, ?_⟩
  · rintro fn rfl
    exact he
  change OuterPassed (r.next e) (seenAfter t.state e t.seen)
  rw [seenAfter_eq h.abstracts]
  cases e with
  | register fn =>
    rw [if_neg fun hcalled => hcalled.2 rfl]
    exact h.passed
  | finalizeRanges ranges =>
    refine h.passed.proceed (fun _ => rfl) ?_
    rintro rfl - k hk
    exact (h.counted.newest (calledFrom_length r) hk).2
  | handlerReturns =>
    cases hloops : r.loops with
    | nil => exact absurd ((no_loops_iff h.abstracts).mpr hloops) he
    | cons l rest =>
      obtain ⟨ranges, k⟩ := l
      have hstep : r.next .handlerReturns = r.proceed ranges rest (r.nextDue ranges k) := by
        rw [Registry.next, hloops]
      rw [hstep]
      refine h.passed.proceed (fun hne => ?_) ?_
      · rw [hloops, List.getLast?_cons_of_ne_nil hne]
      · rintro rfl rfl k' hk'
        have hmem : k ∈ r.called := h.counted.loops ([], k) (by rw [hloops]; simp)
        exact (h.counted.newest (calledFrom_start hmem (h.goesOn hg hloops)) hk').2

theorem tracked_inductive :
    Inductive trackedSystem registrationsSeen fun t => ∃ r, TrackedInvariant t r where
  initial t := by
    rintro rfl
    exact ⟨_, abstracts_initial, ⟨by simp, by simp, List.nodup_nil, by simp⟩, nofun⟩
  step t e := by
    rintro ⟨r, hr⟩ he hg
    exact ⟨r.next e, hr.next he hg⟩

/-- Every handler that is registered before or while `z_cxa_finalize(NULL)` runs has been called
when it returns, each once, if no registration is hidden from it. -/
theorem all_called_at_return {t : Tracked}
    (h : ReachableUnder trackedSystem registrationsSeen t) :
    (∀ e, registrationsSeen t e → Returns t.state e → AllCalled (next t.state e)) ∧
      ∀ fn, handlers (next t.state (.register fn)) = handlers t.state ++ [fn] := by
  refine ⟨fun e hg hret => ?_, registered_next t.state⟩
  obtain ⟨r, hr⟩ := tracked_inductive.reachable h
  refine allCalled_of_returns hr.counted hr.abstracts ?_ hret
  rintro k rfl hloops
  exact hr.goesOn hg hloops

def onlyOutermost (s : State) : Event → Prop
  | .finalizeRanges ranges => ranges = [] ∧ s.loops = []
  | _ => True

/-- At most one loop, over all handlers, which will restart or has left nothing above it. -/
structure LoneInvariant (r : Registry) : Prop where
  counted : CallInvariant r
  lone : r.loops = [] ∨
    ∃ k, r.loops = [([], k)] ∧ (r.newRegistration = true ∨ Walked r k)

theorem CallInvariant.goesOn (h : CallInvariant r) {i : ℕ}
    (habove : CalledFrom r i) :
    LoneInvariant (r.proceed [] [] (scanFns [] r.handlers i)) := by
  refine ⟨h.proceed (by simp) fun k hk => (scanFns_some hk).2.1, ?_⟩
  cases hscan : scanFns [] r.handlers i with
  | none => exact .inl rfl
  | some k =>
    refine .inr ⟨k, rfl, .inr fun j hj hlt => ?_⟩
    rw [Registry.proceed, List.length_modify] at hlt
    exact List.mem_append_left _ ((h.newest habove hscan).2 j hj hlt)

theorem LoneInvariant.step {s : State} (ha : Abstracts s r) (h : LoneInvariant r) {e : Event}
    (he : Enabled s e) (hg : onlyOutermost s e) (hnot : ∀ fn, e ≠ .register fn) :
    ∃ i, CalledFrom r i ∧ r.next e = r.proceed [] [] (scanFns [] r.handlers i) := by
  cases e with
  | register fn => exact absurd rfl (hnot fn)
  | finalizeRanges ranges =>
    obtain ⟨rfl, hs⟩ := hg
    rw [Registry.next, (no_loops_iff ha).mp hs]
    exact ⟨_, calledFrom_length r, rfl⟩
  | handlerReturns =>
    rcases h.lone with hnil | ⟨k, hk, hseen⟩
    · exact absurd ((no_loops_iff ha).mpr hnil) he
    · have hmem : k ∈ r.called := h.counted.loops ([], k) (by simp [hk])
      rw [Registry.next, hk]
      exact ⟨_, calledFrom_start hmem hseen, rfl⟩

theorem LoneInvariant.next {s : State} (ha : Abstracts s r) (h : LoneInvariant r) {e : Event}
    (he : Enabled s e) (hg : onlyOutermost s e) : LoneInvariant (r.next e) := by
  by_cases hreg : ∃ fn, e = .register fn
  · obtain ⟨fn, rfl⟩ := hreg
    refine ⟨h.counted.next fun fn' hfn' => ?_, ?_⟩
    · cases hfn'
      exact he
    · exact h.lone.imp id fun ⟨k, hk, _⟩ => ⟨k, hk, .inl rfl⟩
  · obtain ⟨i, habove, hstep⟩ := h.step ha he hg fun fn hfn => hreg ⟨fn, hfn⟩
    rw [hstep]
    exact h.counted.goesOn habove

def Lone (s : State) : Prop := ∃ r, Abstracts s r ∧ LoneInvariant r

theorem lone_inductive : Inductive atexitSystem onlyOutermost Lone where
  initial s hs := by
    subst hs
    exact ⟨_, abstracts_initial, ⟨by simp, by simp, List.nodup_nil, by simp⟩, .inl rfl⟩
  step s e := by
    rintro ⟨r, ha, hr⟩ he hg
    exact ⟨r.next e, ha.next e, hr.next ha he hg⟩

/-- The contract of `z_cxa_finalize(NULL)` in a state with or without a running handler. -/
structure LastInFirstOut (s : State) : Prop where
  newest : ∀ e k, Enabled s e → onlyOutermost s e → (next s e).called = s.called ++ [k] →
    Uncalled s k ∧ ∀ j, Uncalled s j → j ≤ k
  drained : ∀ e, Enabled s e → onlyOutermost s e → Returns s e → AllCalled (next s e)
  returns : ∃ m, (runTrace atexitSystem s (List.replicate m .handlerReturns)).loops = []
  registered : ∀ fn, Enabled s (.register fn) →
    handlers (next s (.register fn)) = handlers s ++ [fn]

theorem Lone.newest {s : State} {e : Event} {k : ℕ} (h : Lone s) (he : Enabled s e)
    (hg : onlyOutermost s e) (hk : (next s e).called = s.called ++ [k]) :
    Uncalled s k ∧ ∀ j, Uncalled s j → j ≤ k := by
  obtain ⟨r, ha, hr⟩ := h
  rw [← (ha.next e).called, ← ha.called] at hk
  have hnot : ∀ fn, e ≠ .register fn := by
    rintro fn rfl
    simp [Registry.next] at hk
  obtain ⟨i, habove, hstep⟩ := hr.step ha he hg hnot
  rw [hstep] at hk
  unfold Uncalled handlers
  rw [← ha.handlers, ← ha.called]
  cases hscan : scanFns [] r.handlers i with
  | none => simp [hscan, Registry.proceed] at hk
  | some k' =>
    rw [hscan, Registry.proceed, List.append_cancel_left_eq, List.cons.injEq] at hk
    obtain ⟨rfl, -⟩ := hk
    obtain ⟨huncalled, hwalked⟩ := hr.counted.newest habove hscan
    refine ⟨huncalled, fun j hj => ?_⟩
    by_contra hlt
    exact hj.2 (hwalked j (Nat.lt_of_not_le hlt) hj.1)

theorem CallInvariant.length_called (h : CallInvariant r) :
    r.called.length ≤ r.handlers.length := by
  have hsub : r.called ⊆ List.range r.handlers.length :=
    fun k hk => List.mem_range.mpr (h.registered k hk)
  simpa using (List.subperm_of_subset h.nodup hsub).length_le

theorem Lone.returns {s : State} (h : Lone s) :
    ∃ m, (runTrace atexitSystem s (List.replicate m .handlerReturns)).loops = [] := by
  obtain ⟨r, ha, hr⟩ := h
  induction hn : r.handlers.length - r.called.length using Nat.strong_induction_on
    generalizing s r with
  | _ n ih =>
    by_cases hnil : s.loops = []
    · exact ⟨0, hnil⟩
    have ha' := ha.next .handlerReturns
    have hr' := hr.next ha (e := .handlerReturns) hnil trivial
    obtain ⟨i, -, hstep⟩ := hr.step ha (e := .handlerReturns) hnil trivial (by simp)
    have hend : (next s .handlerReturns).loops = [] →
        ∃ m, (runTrace atexitSystem s (List.replicate m .handlerReturns)).loops = [] :=
      fun hend => ⟨1, hend⟩
    cases hscan : scanFns [] r.handlers i with
    | none =>
      rw [hscan] at hstep
      refine hend ((no_loops_iff ha').mpr ?_)
      rw [hstep]
      rfl
    | some k =>
      rw [hscan] at hstep
      have hcalled : (r.next .handlerReturns).called.length = r.called.length + 1 := by
        rw [hstep, Registry.proceed, List.length_append, List.length_singleton]
      have hlen : (r.next .handlerReturns).handlers.length = r.handlers.length := by
        rw [hstep, Registry.proceed, List.length_modify]
      have hle := hr'.counted.length_called
      obtain ⟨m, hm⟩ := ih ((r.next .handlerReturns).handlers.length -
        (r.next .handlerReturns).called.length) (by omega) _ ha' hr' rfl
      exact ⟨m + 1, hm⟩

theorem Lone.drained {s : State} (h : Lone s) {e : Event} (hret : Returns s e) :
    AllCalled (next s e) := by
  obtain ⟨r, ha, hr⟩ := h
  refine allCalled_of_returns hr.counted ha (fun k _ hk => ?_) hret
  obtain hnil | ⟨k', hk', hseen⟩ := hr.lone
  · rw [hnil] at hk
    cases hk
  · obtain ⟨hsame, -⟩ := List.cons.inj (hk'.symm.trans hk)
    rwa [(Prod.mk.inj hsame).2] at hseen

theorem finalize_last_in_first_out {s : State} (h : ReachableUnder atexitSystem onlyOutermost s) :
    LastInFirstOut s := by
  have hl := lone_inductive.reachable h
  exact ⟨fun e k he hg hk => hl.newest he hg hk, fun e _ _ hret => hl.drained hret,
    hl.returns, fun fn _ => registered_next s fn⟩

instance (s : State) (e : Event) : Decidable (atexitSystem.Enabled s e) :=
  match e with
  | .register fn => inferInstanceAs (Decidable (fn.fnType ≠ .empty))
  | .finalizeRanges _ => isTrue trivial
  | .handlerReturns =>
    decidable_of_iff (s.loops.length ≠ 0) (not_congr List.length_eq_zero_iff)

instance (s : State) (e : Event) : Decidable (onlyOutermost s e) :=
  match e with
  | .register _ | .handlerReturns => isTrue trivial
  | .finalizeRanges ranges =>
    decidable_of_iff (ranges.length = 0 ∧ s.loops.length = 0)
      (and_congr List.length_eq_zero_iff List.length_eq_zero_iff)

theorem no_ranges_iff (loops : List Loop) :
    loops.map (fun l => l.ranges.isEmpty) = [true] ↔ loops.map Loop.ranges = [[]] := by
  match loops with
  | [] | _ :: _ :: _ => simp
  | [l] => simp

instance (t : Tracked) (e : Event) : Decidable (trackedSystem.Enabled t e) :=
  inferInstanceAs (Decidable (atexitSystem.Enabled t.state e))

instance (t : Tracked) (e : Event) : Decidable (registrationsSeen t e) :=
  match e with
  | .register _ | .finalizeRanges _ => isTrue trivial
  | .handlerReturns =>
    decidable_of_iff (t.state.loops.map (fun l => l.ranges.isEmpty) = [true] →
        t.state.newRegistration = true ∨
          ∀ k < (handlers t.state).length, t.seen ≤ k → k ∈ t.state.called)
      (imp_congr_left (no_ranges_iff _))

def stdFn (addr : BitVec 64) : AtexitFn := ⟨.std, addr, 0, 0⟩

/-- The second handler registers a third one, which is called before the first. -/
theorem third_handler_called_second :
    LastInFirstOut (runTrace atexitSystem initial
      [.register (stdFn 0x1000), .register (stdFn 0x2000), .finalizeRanges [],
        .register (stdFn 0x3000), .handlerReturns]) :=
  finalize_last_in_first_out (valid_trace_reachable rfl (by decide))

/-- Two handlers; the second one registers a third and finalizes the given range. -/
def nestedRun (addr : BitVec 64) : List Event :=
  [.register (stdFn 0x1000), .register (stdFn 0x2000), .finalizeRanges [],
    .register (stdFn 0x3000), .finalizeRanges [⟨addr, 1⟩], .handlerReturns]

theorem nested_finalize_of_new_handler :
    AllCalled (next (runTrace trackedSystem ⟨initial, 0⟩
      (nestedRun 0x3000 ++ [.handlerReturns])).state .handlerReturns) :=
  (all_called_at_return (valid_trace_reachable rfl (by decide))).1 _ (by decide) ⟨rfl, rfl⟩

/-- The nested call of the first handler hides the registration of the third. -/
theorem nested_call_hides_registration :
    ∃ s e, Reachable atexitSystem s ∧ Enabled s e ∧ Returns s e ∧ ¬ AllCalled (next s e) := by
  refine ⟨runTrace atexitSystem initial (nestedRun 0x1000), .handlerReturns,
    valid_trace_reachable rfl (by decide), ?_, ⟨rfl, rfl⟩, ?_⟩
  · exact List.cons_ne_nil _ _
  · unfold AllCalled
    decide

end AtexitFinalize

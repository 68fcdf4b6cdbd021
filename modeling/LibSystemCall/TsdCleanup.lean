import LibSystemCall.TsdKeys
import Mathlib.Data.List.Nodup
import Mathlib.Data.List.Perm.Subperm
import Mathlib.Data.List.Range

/-! # The cleanup of a thread's values

`z_pthread_tsd_cleanup` with destructors that may use the keys: `behave i` are the operations
of the `i`-th destructor call. The cleanup keeps the trace of its events and a log of the
calls beside the state. -/
namespace TsdCleanup

open GuardedSystem TsdKeys

def pthreadDestructorIterations : ℕ := 4

inductive KeyOp (V : Type*) where
  | create (destructor : BitVec 64)
  | delete (key : ℕ)
  | setspecific (key : ℕ) (value : Option V)
  | getspecific (key : ℕ)

variable {τ V : Type*}

def KeyOp.event (self : τ) : KeyOp V → Event τ V
  | .create destructor => .create destructor
  | .delete key => .delete key
  | .setspecific key value => .setspecific self key value
  | .getspecific key => .getspecific self key

/-- A call `destructor(value)`; `history` are the events of the cleanup up to the call. -/
structure Call (τ V : Type*) where
  round : ℕ
  key : ℕ
  destructor : BitVec 64
  value : V
  history : List (Event τ V)
  ops : List (KeyOp V)

structure Cleanup (τ V : Type*) where
  state : State τ V
  trace : List (Event τ V)
  calls : List (Call τ V)

variable [DecidableEq τ] (self : τ) (behave : ℕ → List (KeyOp V))

def cleanupKey (round : ℕ) (c : Cleanup τ V) (key : ℕ) : Cleanup τ V :=
  let (s, call) := zPthreadTsdCleanupKey c.state self key
  let history := c.trace ++ [.cleanupKey self key]
  match call with
  | none => ⟨s, history, c.calls⟩
  | some (destructor, value) =>
    let ops := behave c.calls.length
    let events := ops.map (KeyOp.event self)
    ⟨runTrace (keySystem τ V) s events, history ++ events,
      c.calls ++ [⟨round, key, destructor, value, history, ops⟩]⟩

/-- The first loop of a round; its bound is read anew before each key. -/
def cleanupDynamic (round : ℕ) : ℕ → ℕ → Cleanup τ V → Option (Cleanup τ V)
  | 0, _, _ => none
  | n + 1, k, c =>
    if k ≤ (c.state.thread self).maxTsdKey then
      cleanupDynamic round n (k + 1) (cleanupKey self behave round c k)
    else some c

def cleanupStatic (round : ℕ) (c : Cleanup τ V) : Cleanup τ V :=
  (List.range' pthreadTsdFirst (pthreadTsdMax + 1 - pthreadTsdFirst)).foldl
    (cleanupKey self behave round) c

def cleanupRounds (fuel : ℕ) : ℕ → ℕ → Cleanup τ V → Option (Cleanup τ V)
  | 0, _, c => some c
  | n + 1, j, c =>
    (cleanupDynamic self behave j fuel pthreadTsdStart c).bind fun c =>
      cleanupRounds fuel n (j + 1) (cleanupStatic self behave j c)

def zPthreadTsdCleanup (fuel : ℕ) (s : State τ V) : Option (Cleanup τ V) :=
  (cleanupRounds self behave fuel pthreadDestructorIterations 0 ⟨s, [], []⟩).map fun c =>
    { c with state := resetMax c.state self, trace := c.trace ++ [.cleanupEnd self] }

def storeOf (key : ℕ) (s : State τ V) : Event τ V → Option (Option V)
  | .setspecific t k v =>
    if t = self ∧ k = key ∧ (zPthreadSetspecific s t k v).2 = 0 then some v else none
  | _ => none

def lastStored (key : ℕ) : State τ V → List (Event τ V) → Option V → Option V
  | _, [], last => last
  | s, e :: es, last => lastStored key (next s e) es ((storeOf self key s e).getD last)

/-- Before its cleanup a thread calls `z_pthread_setspecific` and the key operations. -/
def usesKeys (_ : State τ V) : Event τ V → Prop
  | .cleanupKey t _ => t ≠ self
  | .cleanupEnd t => t ≠ self
  | _ => True

def storesNothing (s : State τ V) : Event τ V → Prop
  | .create destructor => (zPthreadKeyCreate s destructor).2.1 ≠ 0
  | .setspecific t key (some value) => (zPthreadSetspecific s t key (some value)).2 ≠ 0
  | _ => True

def Call.before (a : Call τ V) (s : State τ V) : State τ V :=
  runTrace (keySystem τ V) s a.history

def Call.Quiet (a : Call τ V) (s : State τ V) : Prop :=
  ValidTrace (keySystem τ V) storesNothing (a.before s) (a.ops.map (KeyOp.event self))

/-- The cleanup begins after the events `pre` from `s₀`. -/
structure CallContract (owner : τ) (s₀ : State τ V) (pre : List (Event τ V)) (a : Call τ V) : Prop where
  live : Live (a.before (runTrace (keySystem τ V) s₀ pre)) a.key
  destructor : a.destructor ≠ 0#64 ∧
    (zPthreadKeyGetDestructor (a.before (runTrace (keySystem τ V) s₀ pre)).keys a.key).2 =
      a.destructor
  slot : zPthreadGetspecific (a.before (runTrace (keySystem τ V) s₀ pre)) owner a.key = none
  stored : lastStored owner a.key s₀ (pre ++ a.history) none = some a.value

structure CleanupContract (owner : τ) (s₀ : State τ V) (pre : List (Event τ V)) (c : Cleanup τ V) :
    Prop where
  run : c.state = runTrace (keySystem τ V) (runTrace (keySystem τ V) s₀ pre) c.trace
  calls : ∀ a ∈ c.calls, CallContract owner s₀ pre a
  atMost : ∀ key, (c.calls.filter (·.key = key)).length ≤ pthreadDestructorIterations
  unset : ∀ i < pthreadDestructorIterations,
    (∀ a ∈ c.calls, a.round = i → a.Quiet owner (runTrace (keySystem τ V) s₀ pre)) →
      ∀ key, Dynamic key → Live c.state key → zPthreadGetspecific c.state owner key = none

/-- No dynamic value lies above `max_tsd_key`, and the keys below have no destructor. -/
structure KeyBound (owner : τ) (s : State τ V) : Prop where
  bound : ∀ k, pthreadTsdStart ≤ k → (s.thread owner).tsd k ≠ none →
    k ≤ (s.thread owner).maxTsdKey
  max : (s.thread owner).maxTsdKey < pthreadTsdEnd
  static : ∀ k < pthreadTsdStart, s.keys k = 0#64 ∨ s.keys k = ~~~0#64

variable {self} {s : State τ V}

omit [DecidableEq τ] in
theorem keyBound_initial (h : Initial s) : KeyBound self s := by
  refine ⟨fun k hk hv => absurd (h.tsd self k ?_) hv, ?_, fun k _ => .inl (h.keys k)⟩
  · simp only [pthreadTsdStart, pthreadTsdFirst] at hk ⊢
    omega
  · rw [h.max self]
    decide

theorem KeyBound.stored (h : KeyBound self s) (t : τ) {key : ℕ} (v : Option V)
    (hkey : key < pthreadTsdEnd) : KeyBound self (stored s t key v) := by
  constructor
  · intro k hk hv
    simp only [TsdKeys.stored, setThread_tsd] at hv ⊢
    by_cases ht : self = t
    · subst ht
      simp only [if_true, Function.update_apply] at hv ⊢
      by_cases hkk : k = key
      · omega
      · rw [if_neg hkk] at hv
        have := h.bound k hk hv
        omega
    · simp only [if_neg ht] at hv ⊢
      exact h.bound k hk hv
  · simp only [TsdKeys.stored, setThread_tsd]
    by_cases ht : self = t
    · subst ht
      rw [if_pos rfl]
      exact Nat.max_lt.mpr ⟨hkey, h.max⟩
    · rw [if_neg ht]
      exact h.max
  · intro k hk
    change (if key < pthreadTsdStart then _ else s.keys) k = 0#64 ∨ _
    by_cases hlt : key < pthreadTsdStart
    · simp only [TsdKeys.stored, State.setThread, if_pos hlt]
      by_cases hkk : k = key
      · subst hkk
        unfold zPthreadKeySetDestructor
        split
        · exact .inr (Function.update_self _ _ _)
        · exact h.static k hk
      · rw [setDestructor_of_ne _ _ hkk]
        exact h.static k hk
    · simp only [TsdKeys.stored, State.setThread, if_neg hlt]
      exact h.static k hk

theorem KeyBound.cleared (h : KeyBound self s) (t : τ) (key : ℕ) :
    KeyBound self (cleared s t key) := by
  have hmax : ((TsdKeys.cleared s t key).thread self).maxTsdKey =
      (s.thread self).maxTsdKey := by
    simp only [TsdKeys.cleared, setThread_tsd]
    split
    · next ht => rw [ht]
    · rfl
  refine ⟨fun k hk hv => ?_, ?_, h.static⟩
  · rw [hmax]
    refine h.bound k hk fun hn => hv ?_
    simp only [TsdKeys.cleared, setThread_tsd]
    by_cases ht : self = t
    · subst ht
      simp only [if_true, Function.update_apply]
      split
      · rfl
      · exact hn
    · rw [if_neg ht]
      exact hn
  · rw [hmax]
    exact h.max

/-- Only the end of the thread's own cleanup forgets its largest key. -/
theorem KeyBound.next (h : KeyBound self s) {e : Event τ V} (he : e ≠ .cleanupEnd self) :
    KeyBound self (next s e) := by
  have hkeys : ∀ {j : ℕ} {v : BitVec 64}, Dynamic j →
      KeyBound self { s with keys := Function.update s.keys j v } := by
    intro j v hj
    refine ⟨h.bound, h.max, fun k hk => ?_⟩
    have hkj : k ≠ j := by have := hj.1; omega
    simp only [Function.update_of_ne hkj]
    exact h.static k hk
  cases e with
  | create destructor =>
    rcases create_cases s destructor with ⟨j, hj, _, hc⟩ | ⟨_, hc⟩
    · simp only [TsdKeys.next, hc]
      exact hkeys hj
    · simp only [TsdKeys.next, hc]
      exact h
  | delete key =>
    rcases delete_cases s key with ⟨hk, _, hd⟩ | ⟨_, hd⟩
    · simp only [TsdKeys.next, hd]
      exact hkeys hk
    · simp only [TsdKeys.next, hd]
      exact h
  | setspecific t key v =>
    simp only [TsdKeys.next, setspecific_eq]
    split
    · next hs => exact h.stored t v hs.2.1
    · exact h
  | getspecific t key => exact h
  | cleanupKey t key =>
    simp only [TsdKeys.next]
    rcases cleanupKey_cases s t key with ⟨v, _, _, hc⟩ | ⟨_, hc⟩
    · rw [hc]
      exact h.cleared t key
    · rw [hc]
      exact h
  | cleanupEnd t =>
    have ht : self ≠ t := fun heq => he (heq ▸ rfl)
    have hself : (TsdKeys.next s (.cleanupEnd t)).thread self = s.thread self := by
      simp only [TsdKeys.next, resetMax, setThread_tsd, if_neg ht]
    exact ⟨by rw [hself]; exact h.bound, by rw [hself]; exact h.max, h.static⟩

theorem KeyBound.run {es : List (Event τ V)} (h : KeyBound self s)
    (hes : ∀ e ∈ es, e ≠ .cleanupEnd self) : KeyBound self (runTrace (keySystem τ V) s es) := by
  induction es generalizing s with
  | nil => exact h
  | cons e es ih =>
    exact ih (h.next (hes e List.mem_cons_self)) fun e he => hes e (List.mem_cons_of_mem _ he)

theorem next_tsd_of_store {e : Event τ V} {key : ℕ} {v : Option V}
    (h : storeOf self key s e = some v) : ((next s e).thread self).tsd key = v := by
  cases e with
  | setspecific t k w =>
    simp only [storeOf] at h
    split at h
    · next hc =>
      obtain ⟨rfl, rfl, hres⟩ := hc
      rw [setspecific_eq] at hres
      by_cases hs : Settable s k
      · simp only [next, setspecific_eq, if_pos hs, stored, setThread_tsd, if_true,
          Function.update_self]
        exact Option.some.inj h
      · rw [if_neg hs] at hres
        cases hres
    · cases h
  | create | delete | getspecific | cleanupKey | cleanupEnd => cases h

theorem next_tsd_of_no_store {e : Event τ V} {key : ℕ} (h : storeOf self key s e = none) :
    ((next s e).thread self).tsd key = (s.thread self).tsd key ∨
      ((next s e).thread self).tsd key = none := by
  rcases next_tsd s e self key with hsame | ⟨v, rfl, hs, _⟩ | hnone
  · exact .inl hsame
  · have hres : (zPthreadSetspecific s self key v).2 = 0 := by rw [setspecific_eq, if_pos hs]
    simp [storeOf, hres] at h
  · exact .inr hnone

theorem value_lastStored {key : ℕ} (es : List (Event τ V)) {last : Option V}
    (h : (s.thread self).tsd key = last ∨ (s.thread self).tsd key = none) :
    ((runTrace (keySystem τ V) s es).thread self).tsd key = lastStored self key s es last ∨
      ((runTrace (keySystem τ V) s es).thread self).tsd key = none := by
  induction es generalizing s last with
  | nil => exact h
  | cons e es ih =>
    apply ih
    cases hst : storeOf self key s e with
    | some v => exact .inl (next_tsd_of_store hst)
    | none =>
      rcases next_tsd_of_no_store hst with hsame | hnone
      · rcases h with h | h
        · exact .inl (hsame.trans h)
        · exact .inr (hsame.trans h)
      · exact .inr hnone

theorem runTrace_append (es fs : List (Event τ V)) :
    runTrace (keySystem τ V) s (es ++ fs) =
      runTrace (keySystem τ V) (runTrace (keySystem τ V) s es) fs := by
  induction es generalizing s with
  | nil => rfl
  | cons e es ih => exact ih

theorem lastStored_concat {key : ℕ} {es : List (Event τ V)} {e : Event τ V}
    (he : ∀ u, storeOf self key u e = none) {last : Option V} :
    lastStored self key s (es ++ [e]) last = lastStored self key s es last := by
  induction es generalizing s last with
  | nil => simp [lastStored, he s]
  | cons f es ih => exact ih

def Unset (owner : τ) (key : ℕ) (s : State τ V) : Prop :=
  Live s key → (s.thread owner).tsd key = none

theorem Unset.next {key : ℕ} {e : Event τ V} (h : Unset self key s) (hk : Dynamic key)
    (hq : storesNothing s e) : Unset self key (next s e) := by
  intro hlive
  have hnone : (s.thread self).tsd key = none := by
    rcases next_keys s e hk with hsame | ⟨d, rfl, hdead, _⟩ | ⟨_, hdeleted⟩
    · exact h (by rw [Live, ← hsame]; exact hlive)
    · rcases create_cases s d with ⟨_, _, _, hc⟩ | ⟨hall, _⟩
      · exact absurd (by rw [hc]) hq
      · exact absurd (hall key hk) hdead
    · exact absurd hdeleted hlive
  rcases next_tsd s e self key with hsame | ⟨v, rfl, hs, hv⟩ | h
  · exact hsame.trans hnone
  · cases v with
    | none => exact hv
    | some v => exact absurd (by rw [setspecific_eq, if_pos hs]) hq
  · exact h

theorem Unset.run {key : ℕ} {es : List (Event τ V)} (h : Unset self key s) (hk : Dynamic key)
    (hq : ValidTrace (keySystem τ V) storesNothing s es) :
    Unset self key (runTrace (keySystem τ V) s es) := by
  induction es generalizing s with
  | nil => exact h
  | cons e es ih => exact ih (h.next hk hq.1.2) hq.2

theorem unset_cleanedKey (key : ℕ) : Unset self key (next s (.cleanupKey self key)) := by
  intro hlive
  simp only [next] at hlive ⊢
  rcases cleanupKey_cases s self key with ⟨v, _, _, hc⟩ | ⟨hnone, hc⟩
  · simp only [hc, cleared, setThread_tsd, if_true, Function.update_self]
  · rw [hc] at hlive ⊢
    exact hnone hlive

theorem cleanedKey_keys (key : ℕ) : (next s (.cleanupKey self key)).keys = s.keys := by
  simp only [next]
  rcases cleanupKey_cases s self key with ⟨v, _, _, hc⟩ | ⟨_, hc⟩
  · rw [hc]
    rfl
  · rw [hc]

theorem cleanupKey_step (round : ℕ) (c : Cleanup τ V) (key : ℕ) :
    (∃ value, Live c.state key ∧ (c.state.thread self).tsd key = some value ∧
        ~~~c.state.keys key ≠ 0#64 ∧
        cleanupKey self behave round c key =
          ⟨runTrace (keySystem τ V) (next c.state (.cleanupKey self key))
              ((behave c.calls.length).map (KeyOp.event self)),
            c.trace ++ [.cleanupKey self key] ++
              (behave c.calls.length).map (KeyOp.event self),
            c.calls ++ [⟨round, key, ~~~c.state.keys key, value,
              c.trace ++ [.cleanupKey self key], behave c.calls.length⟩]⟩) ∨
      cleanupKey self behave round c key =
        ⟨next c.state (.cleanupKey self key), c.trace ++ [.cleanupKey self key], c.calls⟩ := by
  rcases cleanupKey_cases c.state self key with ⟨v, hlive, hv, hc⟩ | ⟨_, hc⟩
  · by_cases hd : ~~~c.state.keys key ≠ 0#64
    · rw [if_pos hd] at hc
      exact .inl ⟨v, hlive, hv, hd, by simp only [cleanupKey, next, hc]⟩
    · rw [if_neg hd] at hc
      exact .inr (by simp only [cleanupKey, next, hc])
  · exact .inr (by simp only [cleanupKey, next, hc])

def Call.Earlier (a b : Call τ V) : Prop :=
  a.round < b.round ∨ a.round = b.round ∧ a.key < b.key

def RoundQuiet (owner : τ) (s : State τ V) (i : ℕ) (c : Cleanup τ V) : Prop :=
  ∀ a ∈ c.calls, a.round = i → a.Quiet owner s

/-- The cleanup begun in `s` is in round `j`, where it has done the dynamic keys below `k`. -/
structure Progress (owner : τ) (s₀ : State τ V) (pre : List (Event τ V)) (j k : ℕ)
    (c : Cleanup τ V) : Prop where
  run : c.state = runTrace (keySystem τ V) (runTrace (keySystem τ V) s₀ pre) c.trace
  bound : KeyBound owner c.state
  calls : ∀ a ∈ c.calls, CallContract owner s₀ pre a
  order : c.calls.Pairwise Call.Earlier
  before : ∀ a ∈ c.calls, a.round < j ∨ a.round = j ∧ pthreadTsdStart ≤ a.key ∧ a.key < k
  swept : RoundQuiet owner (runTrace (keySystem τ V) s₀ pre) j c →
    ∀ key < k, Dynamic key → Unset owner key c.state
  settled : ∀ i < j, RoundQuiet owner (runTrace (keySystem τ V) s₀ pre) i c →
    ∀ key, Dynamic key → Unset owner key c.state

variable {s₀ : State τ V} {pre : List (Event τ V)} {j k : ℕ} {c : Cleanup τ V}

theorem Progress.skip (h : Progress self s₀ pre j k c) (key : ℕ) :
    Progress self s₀ pre j k
      ⟨next c.state (.cleanupKey self key), c.trace ++ [.cleanupKey self key], c.calls⟩ where
  run := by rw [runTrace_append, ← h.run]; rfl
  bound := h.bound.next (e := .cleanupKey self key) (by simp)
  calls := h.calls
  order := h.order
  before := h.before
  swept hq i hi hd := (h.swept hq i hi hd).next hd trivial
  settled i hi hq key hd := (h.settled i hi hq key hd).next hd trivial

theorem Progress.advance (h : Progress self s₀ pre j k c) (hu : Unset self k c.state) :
    Progress self s₀ pre j (k + 1) c where
  run := h.run
  bound := h.bound
  calls := h.calls
  order := h.order
  before a ha := (h.before a ha).imp_right fun hb => ⟨hb.1, hb.2.1, by omega⟩
  swept hq i hi hd := by
    rcases Nat.lt_succ_iff_lt_or_eq.mp hi with hlt | rfl
    · exact h.swept hq i hlt hd
    · exact hu
  settled := h.settled

theorem Progress.before_call (h : Progress self s₀ pre j k c) {a : Call τ V}
    (ha : a.history = c.trace ++ [.cleanupKey self k]) :
    a.before (runTrace (keySystem τ V) s₀ pre) = next c.state (.cleanupKey self k) := by
  rw [Call.before, ha]
  exact (h.skip k).run.symm

theorem Progress.call_contract (h₀ : Initial s₀) (h : Progress self s₀ pre j k c)
    (hk : Dynamic k) {value : V} (hlive : Live c.state k)
    (hv : (c.state.thread self).tsd k = some value) (hd : ~~~c.state.keys k ≠ 0#64)
    (ops : List (KeyOp V)) :
    CallContract self s₀ pre
      ⟨j, k, ~~~c.state.keys k, value, c.trace ++ [.cleanupKey self k], ops⟩ := by
  have hkeys : Live (next c.state (.cleanupKey self k)) k := by
    rw [Live, cleanedKey_keys]
    exact hlive
  constructor
  · rw [h.before_call rfl]
    exact hkeys
  · rw [h.before_call rfl, cleanedKey_keys]
    exact ⟨hd, rfl⟩
  · rw [h.before_call rfl]
    exact unset_cleanedKey k hkeys
  · rw [← List.append_assoc, lastStored_concat fun _ => rfl]
    have hzero : (s₀.thread self).tsd k = none := by
      have hle := hk.1
      refine h₀.tsd self k ?_
      simp only [pthreadTsdStart, pthreadTsdFirst] at hle ⊢
      omega
    have hlast := value_lastStored (pre ++ c.trace) (.inl hzero)
    rw [runTrace_append, ← h.run, hv] at hlast
    exact (hlast.resolve_right (by simp)).symm

theorem Progress.call (h₀ : Initial s₀) (h : Progress self s₀ pre j k c) (hk : Dynamic k)
    {value : V}
    (hlive : Live c.state k) (hv : (c.state.thread self).tsd k = some value)
    (hd : ~~~c.state.keys k ≠ 0#64) (ops : List (KeyOp V)) :
    Progress self s₀ pre j (k + 1)
      ⟨runTrace (keySystem τ V) (next c.state (.cleanupKey self k)) (ops.map (KeyOp.event self)),
        c.trace ++ [.cleanupKey self k] ++ ops.map (KeyOp.event self),
        c.calls ++ [⟨j, k, ~~~c.state.keys k, value, c.trace ++ [.cleanupKey self k], ops⟩]⟩ := by
  have hskip := h.skip k
  constructor
  · rw [runTrace_append, ← hskip.run]
  · refine hskip.bound.run ?_
    intro e he
    obtain ⟨op, _, rfl⟩ := List.mem_map.mp he
    cases op <;> simp [KeyOp.event]
  · intro a ha
    rcases List.mem_append.mp ha with ha | ha
    · exact h.calls a ha
    · rw [List.mem_singleton.mp ha]
      exact h.call_contract h₀ hk hlive hv hd ops
  · refine List.pairwise_append.mpr ⟨h.order, List.pairwise_singleton _ _, ?_⟩
    intro a ha b hb
    rw [List.mem_singleton.mp hb]
    exact (h.before a ha).imp_right fun hb => ⟨hb.1, hb.2.2⟩
  · intro a ha
    rcases List.mem_append.mp ha with ha | ha
    · exact (h.before a ha).imp_right fun hb => ⟨hb.1, hb.2.1, by omega⟩
    · rw [List.mem_singleton.mp ha]
      exact .inr ⟨rfl, hk.1, Nat.lt_succ_self k⟩
  · intro hq i hi hdyn
    have hquiet := hq _ (List.mem_append_right _ (List.mem_singleton_self _)) rfl
    rw [Call.Quiet, h.before_call rfl] at hquiet
    refine Unset.run ?_ hdyn hquiet
    have hold : RoundQuiet self (runTrace (keySystem τ V) s₀ pre) j c :=
      fun a ha => hq a (List.mem_append_left _ ha)
    rcases Nat.lt_succ_iff_lt_or_eq.mp hi with hlt | rfl
    · exact hskip.swept hold i hlt hdyn
    · exact unset_cleanedKey i
  · intro i hi hq
    have hold : RoundQuiet self (runTrace (keySystem τ V) s₀ pre) i c :=
      fun a ha => hq a (List.mem_append_left _ ha)
    have hnone := h.settled i hi hold k hk hlive
    rw [hv] at hnone
    cases hnone

theorem Progress.dynamic (h₀ : Initial s₀) (h : Progress self s₀ pre j k c) (hk : Dynamic k) :
    Progress self s₀ pre j (k + 1) (cleanupKey self behave j c k) := by
  rcases cleanupKey_step behave j c k with ⟨v, hlive, hv, hd, hc⟩ | hc
  · rw [hc]
    exact h.call h₀ hk hlive hv hd _
  · rw [hc]
    exact (h.skip k).advance (unset_cleanedKey k)

theorem Progress.static (h : Progress self s₀ pre j k c) {key : ℕ} (hkey : key < pthreadTsdStart) :
    Progress self s₀ pre j k (cleanupKey self behave j c key) := by
  rcases cleanupKey_step behave j c key with ⟨_, hlive, _, hd, _⟩ | hc
  · rcases h.bound.static key hkey with hz | hz
    · exact absurd hz hlive
    · exact absurd (by rw [hz, BitVec.not_not]) hd
  · rw [hc]
    exact h.skip key

theorem Progress.cleanupStatic (h : Progress self s₀ pre j k c) :
    Progress self s₀ pre j k (cleanupStatic self behave j c) := by
  have hkeys : ∀ key ∈ List.range' pthreadTsdFirst (pthreadTsdMax + 1 - pthreadTsdFirst),
      key < pthreadTsdStart := by decide
  unfold TsdCleanup.cleanupStatic
  generalize List.range' pthreadTsdFirst (pthreadTsdMax + 1 - pthreadTsdFirst) = l at hkeys ⊢
  induction l generalizing c with
  | nil => exact h
  | cons key l ih =>
    exact ih (h.static behave (hkeys key List.mem_cons_self)) fun i hi =>
      hkeys i (List.mem_cons_of_mem _ hi)

theorem Progress.rest (h : Progress self s₀ pre j k c)
    (hk : (c.state.thread self).maxTsdKey < k) (hend : k ≤ pthreadTsdEnd) :
    Progress self s₀ pre j pthreadTsdEnd c where
  run := h.run
  bound := h.bound
  calls := h.calls
  order := h.order
  before a ha := (h.before a ha).imp_right fun hb => ⟨hb.1, hb.2.1, by omega⟩
  swept hq key _ hdyn hlive := by
    by_contra hv
    have hle := h.bound.bound key hdyn.1 hv
    exact hv (h.swept hq key (by omega) hdyn hlive)
  settled := h.settled

theorem Progress.cleanupDynamic (h₀ : Initial s₀) {n : ℕ} (hk : pthreadTsdStart ≤ k)
    (hend : k ≤ pthreadTsdEnd) (h : Progress self s₀ pre j k c) (hn : pthreadTsdEnd < n + k) :
    ∃ c', cleanupDynamic self behave j n k c = some c' ∧
      Progress self s₀ pre j pthreadTsdEnd c' := by
  induction n generalizing k c with
  | zero => omega
  | succ n ih =>
    unfold TsdCleanup.cleanupDynamic
    by_cases hmax : k ≤ (c.state.thread self).maxTsdKey
    · rw [if_pos hmax]
      have hdyn : Dynamic k := ⟨hk, Nat.lt_of_le_of_lt hmax h.bound.max⟩
      exact ih (by omega) hdyn.2 (h.dynamic behave h₀ hdyn) (by omega)
    · rw [if_neg hmax]
      exact ⟨c, rfl, h.rest (by omega) hend⟩

theorem Progress.endRound (h : Progress self s₀ pre j pthreadTsdEnd c) :
    Progress self s₀ pre (j + 1) pthreadTsdStart c where
  run := h.run
  bound := h.bound
  calls := h.calls
  order := h.order
  before a ha := by
    rcases h.before a ha with hb | hb
    · exact .inl (by omega)
    · exact .inl (by omega)
  swept _ key hlt hdyn := absurd hdyn.1 (by omega)
  settled i hi hq key hdyn := by
    rcases Nat.lt_succ_iff_lt_or_eq.mp hi with hlt | rfl
    · exact h.settled i hlt hq key hdyn
    · exact h.swept hq key hdyn.2 hdyn

theorem Progress.cleanupRounds (h₀ : Initial s₀) {fuel : ℕ}
    (hfuel : pthreadTsdEnd - pthreadTsdStart < fuel) {n : ℕ}
    (h : Progress self s₀ pre j pthreadTsdStart c) :
    ∃ c', cleanupRounds self behave fuel n j c = some c' ∧
      Progress self s₀ pre (j + n) pthreadTsdStart c' := by
  induction n generalizing j c with
  | zero => exact ⟨c, rfl, h⟩
  | succ n ih =>
    have hn : pthreadTsdEnd < fuel + pthreadTsdStart := by omega
    obtain ⟨d, hd, hp⟩ := h.cleanupDynamic behave h₀ (Nat.le_refl _) (by decide) hn
    obtain ⟨c', hc', hp'⟩ := ih (hp.cleanupStatic behave).endRound
    refine ⟨c', ?_, ?_⟩
    · simp only [TsdCleanup.cleanupRounds, hd, Option.bind_some]
      exact hc'
    · rw [show j + (n + 1) = j + 1 + n by omega]
      exact hp'

omit [DecidableEq τ] in
/-- A key is visited once in each round. -/
theorem atMost_of_earlier {l : List (Call τ V)} {n : ℕ} (hl : l.Pairwise Call.Earlier)
    (hn : ∀ a ∈ l, a.round < n) (key : ℕ) : (l.filter (·.key = key)).length ≤ n := by
  have hround : ((l.filter (·.key = key)).map Call.round).Nodup := by
    refine List.pairwise_map.mpr ((hl.filter _).imp_of_mem fun ha hb hab heq => ?_)
    have hka := (List.mem_filter.mp ha).2
    have hkb := (List.mem_filter.mp hb).2
    simp only [decide_eq_true_eq] at hka hkb
    rcases hab with hlt | ⟨_, hlt⟩
    · omega
    · omega
  have hsub : ((l.filter (·.key = key)).map Call.round).Subperm (List.range n) := by
    refine List.subperm_of_subset hround fun i hi => ?_
    obtain ⟨a, ha, rfl⟩ := List.mem_map.mp hi
    exact List.mem_range.mpr (hn a (List.mem_filter.mp ha).1)
  simpa using hsub.length_le

theorem usesKeys_bound {es : List (Event τ V)} (h : KeyBound self s)
    (hes : ValidTrace (keySystem τ V) (usesKeys self) s es) :
    KeyBound self (runTrace (keySystem τ V) s es) := by
  induction es generalizing s with
  | nil => exact h
  | cons e es ih => exact ih (h.next fun he => by subst he; exact hes.1.2 rfl) hes.2

theorem cleanup_contract (h₀ : Initial s₀)
    (hpre : ValidTrace (keySystem τ V) (usesKeys self) s₀ pre) {fuel : ℕ}
    (hfuel : pthreadTsdEnd - pthreadTsdStart < fuel) :
    ∃ c, zPthreadTsdCleanup self behave fuel (runTrace (keySystem τ V) s₀ pre) = some c ∧
      CleanupContract self s₀ pre c := by
  have hstart : Progress self s₀ pre 0 pthreadTsdStart
      ⟨runTrace (keySystem τ V) s₀ pre, [], []⟩ := by
    refine ⟨rfl, usesKeys_bound (keyBound_initial h₀) hpre, by simp, .nil, by simp, ?_, by simp⟩
    exact fun _ key hlt hdyn => absurd hdyn.1 (by omega)
  obtain ⟨c, hc, hp⟩ :=
    hstart.cleanupRounds behave h₀ hfuel (n := pthreadDestructorIterations)
  refine ⟨_, congrArg (Option.map _) hc, ?_, hp.calls, ?_, ?_⟩
  · change resetMax c.state self = _
    rw [runTrace_append, ← hp.run]
    rfl
  · refine atMost_of_earlier hp.order fun a ha => ?_
    rcases hp.before a ha with hb | hb
    · simpa using hb
    · omega
  · intro i hi hq key hdyn hlive
    have hnone := hp.settled i (by omega) hq key hdyn hlive
    simp only [zPthreadGetspecific, resetMax, setThread_tsd, if_true]
    exact hnone

instance (s : State τ V) (e : Event τ V) : Decidable (usesKeys self s e) := by
  cases e <;> unfold usesKeys <;> infer_instance

/-- A destructor that deletes its key, creates it again and stores a value under it. -/
theorem key_set_again_contract :
    ∃ c, zPthreadTsdCleanup false
        (fun i => if i = 0 then [.delete 256, .create 8192#64, .setspecific 256 (some 9)] else [])
        513 (runTrace (keySystem Bool ℕ) zeroed
          [.create 4096#64, .setspecific false 256 (some 7)]) = some c ∧
      CleanupContract false zeroed [.create 4096#64, .setspecific false 256 (some 7)] c :=
  cleanup_contract _ zeroed_initial (by decide) (by decide)

end TsdCleanup

import LibSystemCall.GuardedSystem
import Mathlib.Algebra.Group.Int.Defs
import Mathlib.Algebra.Group.Nat.Defs
import Mathlib.Logic.Function.Basic

/-! # Keys and values of thread-specific data

An entry of `z_pthread_keys` holds the complement of the destructor; 0 marks a key that does
not exist. A value is NULL (`none`) or something else. -/
namespace TsdKeys

open GuardedSystem

def EINVAL : ℤ := 22
def EAGAIN : ℤ := 35

def pthreadTsdFirst : ℕ := 10
def pthreadTsdStart : ℕ := 256
def pthreadTsdEnd : ℕ := 768
def pthreadTsdMax : ℕ := 10

structure Thread (V : Type*) where
  tsd : ℕ → Option V
  maxTsdKey : ℕ

structure State (τ V : Type*) where
  keys : ℕ → BitVec 64
  thread : τ → Thread V

variable {τ V : Type*}

def zPthreadKeyGetDestructor (keys : ℕ → BitVec 64) (key : ℕ) : Bool × BitVec 64 :=
  let value := keys key
  (value ≠ 0#64, ~~~value)

def zPthreadKeySetDestructor (keys : ℕ → BitVec 64) (key : ℕ) (destructor : BitVec 64) :
    (ℕ → BitVec 64) × Bool :=
  if keys key = 0#64 then (Function.update keys key (~~~destructor), true) else (keys, false)

def zPthreadKeyUnsetDestructor (keys : ℕ → BitVec 64) (key : ℕ) : (ℕ → BitVec 64) × Bool :=
  if keys key ≠ 0#64 then (Function.update keys key 0#64, true) else (keys, false)

def createLoop (keys : ℕ → BitVec 64) (destructor : BitVec 64) :
    ℕ → ℕ → Option (ℕ × (ℕ → BitVec 64))
  | 0, _ => none
  | n + 1, k =>
    let (keys', created) := zPthreadKeySetDestructor keys k destructor
    if created then some (k, keys') else createLoop keys destructor n (k + 1)

def zPthreadKeyCreate (s : State τ V) (destructor : BitVec 64) : State τ V × ℤ × Option ℕ :=
  match createLoop s.keys destructor (pthreadTsdEnd - pthreadTsdStart) pthreadTsdStart with
  | some (k, keys) => ({ s with keys := keys }, 0, some k)
  | none => (s, EAGAIN, none)

def zPthreadKeyDelete (s : State τ V) (key : ℕ) : State τ V × ℤ :=
  if key ≥ pthreadTsdStart ∧ key < pthreadTsdEnd then
    let (keys, unset) := zPthreadKeyUnsetDestructor s.keys key
    if unset then ({ s with keys := keys }, 0) else (s, EINVAL)
  else (s, EINVAL)

variable [DecidableEq τ]

def State.setThread (s : State τ V) (self : τ) (t : Thread V) : State τ V :=
  { s with thread := Function.update s.thread self t }

def zPthreadSetspecific (s : State τ V) (self : τ) (key : ℕ) (value : Option V) :
    State τ V × ℤ :=
  if key ≥ pthreadTsdFirst ∧ key < pthreadTsdEnd then
    let created := (zPthreadKeyGetDestructor s.keys key).1
    if key < pthreadTsdStart ∨ created then
      let t := s.thread self
      let keys :=
        if key < pthreadTsdStart then (zPthreadKeySetDestructor s.keys key 0#64).1 else s.keys
      let max := if key > t.maxTsdKey then key % 2 ^ 16 else t.maxTsdKey
      ({ s with keys := keys }.setThread self ⟨Function.update t.tsd key value, max⟩, 0)
    else (s, EINVAL)
  else (s, EINVAL)

def zPthreadGetspecific (s : State τ V) (self : τ) (key : ℕ) : Option V := (s.thread self).tsd key

/-- Clears the value of a key that exists, and yields the destructor with the value if there
is something to call. -/
def zPthreadTsdCleanupKey (s : State τ V) (self : τ) (key : ℕ) :
    State τ V × Option (BitVec 64 × V) :=
  let (created, destructor) := zPthreadKeyGetDestructor s.keys key
  if created then
    let t := s.thread self
    match t.tsd key with
    | some value =>
      (s.setThread self { t with tsd := Function.update t.tsd key none },
        if destructor ≠ 0#64 then some (destructor, value) else none)
    | none => (s, none)
  else (s, none)

/-- The last line of `z_pthread_tsd_cleanup_new`. -/
def resetMax (s : State τ V) (self : τ) : State τ V :=
  s.setThread self { s.thread self with maxTsdKey := 0 }

/-! Runs of these operations by any threads. The cleanup of a thread is a sequence of
`cleanupKey`, with the operations of the destructors between them, and `cleanupEnd`. -/

inductive Event (τ V : Type*) where
  | create (destructor : BitVec 64)
  | delete (key : ℕ)
  | setspecific (self : τ) (key : ℕ) (value : Option V)
  | getspecific (self : τ) (key : ℕ)
  | cleanupKey (self : τ) (key : ℕ)
  | cleanupEnd (self : τ)

def next (s : State τ V) : Event τ V → State τ V
  | .create destructor => (zPthreadKeyCreate s destructor).1
  | .delete key => (zPthreadKeyDelete s key).1
  | .setspecific self key value => (zPthreadSetspecific s self key value).1
  | .getspecific _ _ => s
  | .cleanupKey self key => (zPthreadTsdCleanupKey s self key).1
  | .cleanupEnd self => resetMax s self

structure Initial (s : State τ V) : Prop where
  keys : ∀ k, s.keys k = 0#64
  tsd : ∀ t k, pthreadTsdFirst ≤ k → (s.thread t).tsd k = none
  max : ∀ t, (s.thread t).maxTsdKey = 0

def zeroed : State τ V := ⟨fun _ => 0#64, fun _ => ⟨fun _ => none, 0⟩⟩

omit [DecidableEq τ] in
theorem zeroed_initial : Initial (zeroed : State τ V) :=
  ⟨fun _ => rfl, fun _ _ _ => rfl, fun _ => rfl⟩

def keySystem (τ V : Type*) [DecidableEq τ] : System (State τ V) (Event τ V) :=
  ⟨Initial, fun _ _ => True, next⟩

def Dynamic (key : ℕ) : Prop := pthreadTsdStart ≤ key ∧ key < pthreadTsdEnd

def Live (s : State τ V) (key : ℕ) : Prop := s.keys key ≠ 0#64

instance (key : ℕ) : Decidable (Dynamic key) := inferInstanceAs (Decidable (_ ∧ _))

instance (s : State τ V) (key : ℕ) : Decidable (Live s key) := inferInstanceAs (Decidable (_ ≠ _))

omit [DecidableEq τ] in
@[simp] theorem getDestructor_created (keys : ℕ → BitVec 64) (key : ℕ) :
    (zPthreadKeyGetDestructor keys key).1 = true ↔ keys key ≠ 0#64 := by
  simp [zPthreadKeyGetDestructor]

theorem setDestructor_of_ne (keys : ℕ → BitVec 64) {key k : ℕ} (destructor : BitVec 64)
    (hk : k ≠ key) : (zPthreadKeySetDestructor keys key destructor).1 k = keys k := by
  unfold zPthreadKeySetDestructor
  split
  · exact Function.update_of_ne hk _ _
  · rfl

theorem createLoop_some {destructor : BitVec 64} {keys keys' : ℕ → BitVec 64} {n k j : ℕ}
    (h : createLoop keys destructor n k = some (j, keys')) :
    k ≤ j ∧ j < k + n ∧ keys j = 0#64 ∧ keys' = Function.update keys j (~~~destructor) := by
  induction n generalizing k with
  | zero => cases h
  | succ n ih =>
    by_cases hk : keys k = 0#64
    · simp only [createLoop, zPthreadKeySetDestructor, hk, if_true, Option.some.injEq,
        Prod.mk.injEq] at h
      obtain ⟨rfl, rfl⟩ := h
      exact ⟨Nat.le_refl _, by omega, hk, rfl⟩
    · simp only [createLoop, zPthreadKeySetDestructor, hk, if_false] at h
      obtain ⟨hle, hlt, hj, hkeys⟩ := ih h
      exact ⟨by omega, by omega, hj, hkeys⟩

theorem createLoop_none {destructor : BitVec 64} {keys : ℕ → BitVec 64} {n k : ℕ} :
    createLoop keys destructor n k = none ↔ ∀ j, k ≤ j → j < k + n → keys j ≠ 0#64 := by
  induction n generalizing k with
  | zero => exact iff_of_true rfl fun j hle hlt => absurd hlt (by omega)
  | succ n ih =>
    by_cases hk : keys k = 0#64
    · simp only [createLoop, zPthreadKeySetDestructor, hk, if_true, reduceCtorEq, false_iff]
      intro h
      exact h k (Nat.le_refl k) (by omega) hk
    · simp only [createLoop, zPthreadKeySetDestructor, hk, if_false, Bool.false_eq_true]
      rw [ih]
      constructor
      · intro h j hle hlt
        rcases Nat.eq_or_lt_of_le hle with rfl | hle
        · exact hk
        · exact h j hle (by omega)
      · intro h j hle hlt
        exact h j (by omega) (by omega)

omit [DecidableEq τ] in
theorem create_cases (s : State τ V) (destructor : BitVec 64) :
    (∃ k, Dynamic k ∧ ¬ Live s k ∧ zPthreadKeyCreate s destructor =
        ({ s with keys := Function.update s.keys k (~~~destructor) }, 0, some k)) ∨
      (∀ k, Dynamic k → Live s k) ∧ zPthreadKeyCreate s destructor = (s, EAGAIN, none) := by
  unfold zPthreadKeyCreate
  cases h : createLoop s.keys destructor (pthreadTsdEnd - pthreadTsdStart) pthreadTsdStart with
  | none =>
    refine .inr ⟨fun k hk => createLoop_none.mp h k hk.1 ?_, rfl⟩
    have := hk.2
    simp only [pthreadTsdStart, pthreadTsdEnd] at this ⊢
    omega
  | some r =>
    obtain ⟨hle, hlt, hk, hkeys⟩ := createLoop_some h
    refine .inl ⟨r.1, ⟨hle, ?_⟩, fun hl => hl hk, by rw [← hkeys]⟩
    simp only [pthreadTsdStart, pthreadTsdEnd] at hlt ⊢
    omega

omit [DecidableEq τ] in
theorem create_thread (s : State τ V) (destructor : BitVec 64) :
    (zPthreadKeyCreate s destructor).1.thread = s.thread := by
  rcases create_cases s destructor with ⟨_, _, _, hc⟩ | ⟨_, hc⟩
  · rw [hc]
  · rw [hc]

omit [DecidableEq τ] in
theorem delete_cases (s : State τ V) (key : ℕ) :
    (Dynamic key ∧ Live s key ∧ zPthreadKeyDelete s key =
        ({ s with keys := Function.update s.keys key 0#64 }, 0)) ∨
      ¬ (Dynamic key ∧ Live s key) ∧ zPthreadKeyDelete s key = (s, EINVAL) := by
  unfold zPthreadKeyDelete zPthreadKeyUnsetDestructor Dynamic Live
  by_cases hd : key ≥ pthreadTsdStart ∧ key < pthreadTsdEnd
  · by_cases hk : s.keys key = 0#64
    · exact .inr ⟨fun h => h.2 hk, by simp [hd, hk]⟩
    · exact .inl ⟨hd, hk, by simp [hd, hk]⟩
  · exact .inr ⟨fun h => hd h.1, if_neg hd⟩

def Settable (s : State τ V) (key : ℕ) : Prop :=
  pthreadTsdFirst ≤ key ∧ key < pthreadTsdEnd ∧ (key < pthreadTsdStart ∨ Live s key)

instance (s : State τ V) (key : ℕ) : Decidable (Settable s key) :=
  inferInstanceAs (Decidable (_ ∧ _ ∧ _))

def stored (s : State τ V) (self : τ) (key : ℕ) (value : Option V) : State τ V :=
  { s with
    keys := if key < pthreadTsdStart then (zPthreadKeySetDestructor s.keys key 0#64).1 else s.keys
  }.setThread self
    ⟨Function.update (s.thread self).tsd key value, max key (s.thread self).maxTsdKey⟩

theorem setspecific_eq (s : State τ V) (self : τ) (key : ℕ) (value : Option V) :
    zPthreadSetspecific s self key value =
      if Settable s key then (stored s self key value, 0) else (s, EINVAL) := by
  have hcreated : key < pthreadTsdStart ∨ (zPthreadKeyGetDestructor s.keys key).1 = true ↔
      key < pthreadTsdStart ∨ Live s key := by
    rw [getDestructor_created]
    rfl
  unfold zPthreadSetspecific
  by_cases hr : key ≥ pthreadTsdFirst ∧ key < pthreadTsdEnd
  · by_cases hc : key < pthreadTsdStart ∨ Live s key
    · have hmax : (if key > (s.thread self).maxTsdKey then key % 2 ^ 16
          else (s.thread self).maxTsdKey) = max key (s.thread self).maxTsdKey := by
        have hlt : key < 768 := hr.2
        rw [Nat.mod_eq_of_lt (by omega)]
        split <;> omega
      have hs : Settable s key := ⟨hr.1, hr.2, hc⟩
      rw [if_pos hr, if_pos (hcreated.mpr hc), if_pos hs]
      simp only [hmax]
      rfl
    · rw [if_pos hr, if_neg (mt hcreated.mp hc), if_neg (fun h => hc h.2.2)]
  · rw [if_neg hr, if_neg fun h => hr ⟨h.1, h.2.1⟩]

theorem stored_keys {s : State τ V} {self : τ} {key k : ℕ} {value : Option V} (hk : Dynamic k) :
    (stored s self key value).keys k = s.keys k := by
  change (if key < pthreadTsdStart then _ else s.keys) k = _
  split
  · exact setDestructor_of_ne _ _ (by have := hk.1; omega)
  · rfl

def cleared (s : State τ V) (self : τ) (key : ℕ) : State τ V :=
  s.setThread self
    { s.thread self with tsd := Function.update (s.thread self).tsd key none }

theorem cleanupKey_cases (s : State τ V) (self : τ) (key : ℕ) :
    (∃ value, Live s key ∧ (s.thread self).tsd key = some value ∧
        zPthreadTsdCleanupKey s self key = (cleared s self key,
          if ~~~s.keys key ≠ 0#64 then some (~~~s.keys key, value) else none)) ∨
      (Live s key → (s.thread self).tsd key = none) ∧
        zPthreadTsdCleanupKey s self key = (s, none) := by
  by_cases hl : Live s key
  · have hcreated := (getDestructor_created _ _).mpr hl
    cases hv : (s.thread self).tsd key with
    | some value =>
      refine .inl ⟨value, hl, rfl, ?_⟩
      simp only [zPthreadTsdCleanupKey, if_pos hcreated, hv]
      rfl
    | none => exact .inr ⟨fun _ => rfl, by simp only [zPthreadTsdCleanupKey, if_pos hcreated, hv]⟩
  · exact .inr ⟨fun h => absurd h hl, if_neg (mt (getDestructor_created _ _).mp hl)⟩

theorem setThread_tsd (s : State τ V) (self t : τ) (u : Thread V) :
    ((s.setThread self u).thread t) = if t = self then u else s.thread t :=
  Function.update_apply _ _ _ _

/-- A value changes only when it is stored under a key that admits it, or cleared. -/
theorem next_tsd (s : State τ V) (e : Event τ V) (t : τ) (k : ℕ) :
    ((next s e).thread t).tsd k = (s.thread t).tsd k ∨
      (∃ v, e = .setspecific t k v ∧ Settable s k ∧ ((next s e).thread t).tsd k = v) ∨
      ((next s e).thread t).tsd k = none := by
  cases e with
  | create destructor =>
    rcases create_cases s destructor with ⟨j, _, _, hc⟩ | ⟨_, hc⟩
    all_goals
      left
      simp only [next, hc]
  | delete key =>
    rcases delete_cases s key with ⟨_, _, hd⟩ | ⟨_, hd⟩
    all_goals
      left
      simp only [next, hd]
  | getspecific self key => exact .inl rfl
  | cleanupEnd self =>
    left
    simp only [next, resetMax, setThread_tsd]
    split
    · next ht => rw [ht]
    · rfl
  | setspecific self key value =>
    simp only [next, setspecific_eq]
    by_cases hs : Settable s key
    · simp only [if_pos hs, stored, setThread_tsd]
      by_cases ht : t = self
      · subst ht
        simp only [if_true, Function.update_apply]
        by_cases hk : k = key
        · subst hk
          exact .inr (.inl ⟨value, rfl, hs, by rw [if_pos rfl]⟩)
        · exact .inl (by rw [if_neg hk])
      · exact .inl (by rw [if_neg ht])
    · exact .inl (by rw [if_neg hs])
  | cleanupKey self key =>
    simp only [next]
    rcases cleanupKey_cases s self key with ⟨v, _, _, hc⟩ | ⟨_, hc⟩
    · simp only [hc, cleared, setThread_tsd]
      by_cases ht : t = self
      · subst ht
        simp only [if_true, Function.update_apply]
        by_cases hk : k = key
        · exact .inr (.inr (by rw [if_pos hk]))
        · exact .inl (by rw [if_neg hk])
      · exact .inl (by rw [if_neg ht])
    · exact .inl (by rw [hc])

/-- The entry of a dynamic key changes only when the key is created or deleted. -/
theorem next_keys (s : State τ V) (e : Event τ V) {k : ℕ} (hk : Dynamic k) :
    (next s e).keys k = s.keys k ∨
      (∃ d, e = .create d ∧ ¬ Live s k ∧ (next s e).keys k = ~~~d) ∨
      e = .delete k ∧ (next s e).keys k = 0#64 := by
  cases e with
  | create destructor =>
    rcases create_cases s destructor with ⟨j, _, hj, hc⟩ | ⟨_, hc⟩
    · simp only [next, hc, Function.update_apply]
      by_cases hkj : k = j
      · subst hkj
        exact .inr (.inl ⟨destructor, rfl, hj, by rw [if_pos rfl]⟩)
      · exact .inl (by rw [if_neg hkj])
    · exact .inl (by rw [next, hc])
  | delete key =>
    rcases delete_cases s key with ⟨_, _, hd⟩ | ⟨_, hd⟩
    · simp only [next, hd, Function.update_apply]
      by_cases hkj : k = key
      · subst hkj
        exact .inr (.inr ⟨rfl, by rw [if_pos rfl]⟩)
      · exact .inl (by rw [if_neg hkj])
    · exact .inl (by rw [next, hd])
  | getspecific self key => exact .inl rfl
  | cleanupEnd self => exact .inl rfl
  | setspecific self key value =>
    left
    simp only [next, setspecific_eq]
    split
    · exact stored_keys hk
    · rfl
  | cleanupKey self key =>
    left
    simp only [next]
    rcases cleanupKey_cases s self key with ⟨v, _, _, hc⟩ | ⟨_, hc⟩
    · rw [hc]
      rfl
    · rw [hc]

def deletesUnset (s : State τ V) : Event τ V → Prop
  | .delete key => Dynamic key → ∀ t, (s.thread t).tsd key = none
  | _ => True

def DeadUnset (s : State τ V) : Prop :=
  ∀ k, Dynamic k → ¬ Live s k → ∀ t, (s.thread t).tsd k = none

theorem deadUnset_inductive : Inductive (keySystem τ V) deletesUnset DeadUnset where
  initial s hs := by
    intro k hk _ t
    have hle := hk.1
    refine hs.tsd t k ?_
    simp only [pthreadTsdStart, pthreadTsdFirst] at hle ⊢
    omega
  step s e hs _ hg := by
    intro k hk hdead t
    have hbefore : (¬ Live s k ∨ e = .delete k) ∧ (s.thread t).tsd k = none := by
      rcases next_keys s e hk with hsame | ⟨d, _, hl, _⟩ | ⟨he, _⟩
      · have hl : ¬ Live s k := fun h => hdead (by rw [Live, keySystem, hsame]; exact h)
        exact ⟨.inl hl, hs k hk hl t⟩
      · exact ⟨.inl hl, hs k hk hl t⟩
      · subst he
        exact ⟨.inr rfl, hg hk t⟩
    rcases next_tsd s e t k with hsame | ⟨v, he, hset, _⟩ | hnone
    · exact hsame.trans hbefore.2
    · rcases hbefore.1 with hl | hdel
      · rcases hset.2.2 with hlt | hlive
        · exact absurd hk.1 (by omega)
        · exact absurd hlive hl
      · rw [he] at hdel
        cases hdel
    · exact hnone

/-- A value found after some events was there before or has been stored in between. -/
theorem value_origin {t : τ} {k : ℕ} {v : V} : ∀ {s : State τ V} {es : List (Event τ V)},
    ((runTrace (keySystem τ V) s es).thread t).tsd k = some v →
      (s.thread t).tsd k = some v ∨ .setspecific t k (some v) ∈ es
  | s, [], h => .inl h
  | s, e :: es, h => by
    rcases value_origin (s := next s e) h with hv | hmem
    · rcases next_tsd s e t k with hsame | ⟨w, he, _, hw⟩ | hnone
      · exact .inl (hsame.symm.trans hv)
      · obtain rfl : w = some v := hw.symm.trans hv
        exact .inr (he ▸ List.mem_cons_self)
      · rw [hnone] at hv
        cases hv
    · exact .inr (List.mem_cons_of_mem _ hmem)

/-- A new key has no value in any thread, and what a destructor gets for it later has been
stored since. -/
theorem created_key_unset {s : State τ V}
    (h : ReachableUnder (keySystem τ V) deletesUnset s) {d : BitVec 64} {k : ℕ}
    (hc : (zPthreadKeyCreate s d).2 = (0, some k)) :
    (∀ t, zPthreadGetspecific (zPthreadKeyCreate s d).1 t k = none) ∧
      ∀ t es destructor value,
        (zPthreadTsdCleanupKey (runTrace (keySystem τ V) (zPthreadKeyCreate s d).1 es) t k).2 =
          some (destructor, value) → .setspecific t k (some value) ∈ es := by
  have hdead := deadUnset_inductive.reachable h
  rcases create_cases s d with ⟨j, hj, hl, hcreate⟩ | ⟨_, hcreate⟩
  · rw [hcreate] at hc
    obtain rfl : j = k := by simpa using hc
    rw [hcreate]
    have hnone : ∀ t, (s.thread t).tsd j = none := hdead j hj hl
    refine ⟨hnone, ?_⟩
    intro t es destructor value hclean
    rcases cleanupKey_cases (runTrace (keySystem τ V) _ es) t j with
      ⟨v, _, hv, hcase⟩ | ⟨_, hcase⟩
    · rw [hcase] at hclean
      split at hclean
      · obtain ⟨-, rfl⟩ : _ ∧ v = value := by simpa using hclean
        refine (value_origin hv).resolve_left ?_
        intro h
        have := hnone t
        rw [h] at this
        cases this
      · cases hclean
    · rw [hcase] at hclean
      cases hclean
  · rw [hcreate] at hc
    simp at hc

instance (s : State Bool ℕ) (e : Event Bool ℕ) : Decidable (deletesUnset s e) := by
  cases e <;> unfold deletesUnset <;> infer_instance

instance (s : State τ V) (e : Event τ V) : Decidable ((keySystem τ V).Enabled s e) :=
  isTrue trivial

def emptied : List (Event Bool ℕ) :=
  [.create 4096#64, .setspecific true 256 (some 7), .setspecific true 256 none, .delete 256]

theorem emptied_key_unset :
    (zPthreadKeyCreate (runTrace (keySystem Bool ℕ) zeroed emptied) 8192#64).2 =
        (0, some 256) ∧
      ∀ t, zPthreadGetspecific
        (zPthreadKeyCreate (runTrace (keySystem Bool ℕ) zeroed emptied) 8192#64).1 t 256 =
          none :=
  have hc : (zPthreadKeyCreate (runTrace (keySystem Bool ℕ) zeroed emptied) 8192#64).2 =
      (0, some 256) := by decide
  ⟨hc, (created_key_unset (valid_trace_reachable zeroed_initial (by decide)) hc).1⟩

def stale : List (Event Bool ℕ) :=
  [.create 4096#64, .setspecific true 256 (some 7), .delete 256]

/-- The new key 256 has the value stored under the deleted one, and its destructor gets it. -/
theorem deleted_value_survives :
    let s := runTrace (keySystem Bool ℕ) zeroed stale
    let u := (zPthreadKeyCreate s 8192#64).1
    Reachable (keySystem Bool ℕ) s ∧ (zPthreadKeyCreate s 8192#64).2 = (0, some 256) ∧
      zPthreadGetspecific u true 256 = some 7 ∧
      (zPthreadTsdCleanupKey u true 256).2 = some (8192#64, 7) :=
  ⟨valid_trace_reachable zeroed_initial (by decide), by decide, by decide, by decide⟩

end TsdKeys

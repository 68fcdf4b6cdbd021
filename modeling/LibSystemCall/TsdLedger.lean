import LibSystemCall.TsdKeys
import Mathlib.Data.List.Nodup
import Mathlib.Data.List.Perm.Subperm
import Mathlib.Data.List.Range

/-! # The keys that z_pthread_key_create has returned and that are not deleted -/
namespace TsdKeys

open GuardedSystem

variable {τ V : Type*} [DecidableEq τ]

structure Ledger (τ V : Type*) where
  state : State τ V
  live : List ℕ

def Ledger.next (l : Ledger τ V) (e : Event τ V) : Ledger τ V where
  state := TsdKeys.next l.state e
  live :=
    match e with
    | .create destructor =>
      match (zPthreadKeyCreate l.state destructor).2 with
      | (0, some k) => l.live ++ [k]
      | _ => l.live
    | .delete key => if (zPthreadKeyDelete l.state key).2 = 0 then l.live.erase key else l.live
    | _ => l.live

def ledgerSystem (τ V : Type*) [DecidableEq τ] : System (Ledger τ V) (Event τ V) :=
  ⟨fun l => Initial l.state ∧ l.live = [], fun _ _ => True, Ledger.next⟩

/-- No key is created with the destructor whose complement is 0. -/
def representable (_ : Ledger τ V) : Event τ V → Prop
  | .create destructor => destructor ≠ BitVec.allOnes 64
  | _ => True

structure KeyContract (l : Ledger τ V) : Prop where
  distinct : l.live.Nodup
  range : ∀ k ∈ l.live, Dynamic k
  table : ∀ k, Dynamic k → (l.state.keys k ≠ 0#64 ↔ k ∈ l.live)
  create_fails : ∀ d, (zPthreadKeyCreate l.state d).2.1 = EAGAIN ↔ l.live.length = 512
  create_succeeds : ∀ d, l.live.length ≠ 512 →
    ∃ k, Dynamic k ∧ k ∉ l.live ∧ (zPthreadKeyCreate l.state d).2 = (0, some k)
  create_unchanged : ∀ d, (zPthreadKeyCreate l.state d).2.1 = EAGAIN →
    zPthreadKeyCreate l.state d = (l.state, EAGAIN, none)
  delete : ∀ k, Dynamic k → ((zPthreadKeyDelete l.state k).2 = 0 ↔ k ∈ l.live)
  delete_unchanged : ∀ k, (zPthreadKeyDelete l.state k).2 ≠ 0 →
    (zPthreadKeyDelete l.state k).1 = l.state
  setspecific : ∀ t k v, Dynamic k →
    ((zPthreadSetspecific l.state t k v).2 = 0 ↔ k ∈ l.live)
  setspecific_unchanged : ∀ t k v, (zPthreadSetspecific l.state t k v).2 ≠ 0 →
    (zPthreadSetspecific l.state t k v).1 = l.state

structure LedgerInvariant (l : Ledger τ V) : Prop where
  distinct : l.live.Nodup
  listed : ∀ k, k ∈ l.live ↔ Dynamic k ∧ Live l.state k

omit [DecidableEq τ] in
theorem LedgerInvariant.keep {l m : Ledger τ V} (hl : LedgerInvariant l)
    (hlive : m.live = l.live) (hkeys : ∀ k, Dynamic k → m.state.keys k = l.state.keys k) :
    LedgerInvariant m where
  distinct := hlive ▸ hl.distinct
  listed k := by
    rw [hlive, hl.listed k]
    exact and_congr_right fun hk => by rw [Live, Live, hkeys k hk]

theorem LedgerInvariant.created {l : Ledger τ V} (hl : LedgerInvariant l) {d : BitVec 64}
    (hd : d ≠ BitVec.allOnes 64) : LedgerInvariant (l.next (.create d)) := by
  rcases create_cases l.state d with ⟨j, hj, hdead, hc⟩ | ⟨_, hc⟩
  · have hlive : (l.next (.create d)).live = l.live ++ [j] := by simp only [Ledger.next, hc]
    have hkeys : (l.next (.create d)).state.keys = Function.update l.state.keys j (~~~d) := by
      simp only [Ledger.next, next, hc]
    constructor
    · rw [hlive]
      exact List.nodup_append_comm.mp
        (List.nodup_cons.mpr ⟨fun h => hdead ((hl.listed j).mp h).2, hl.distinct⟩)
    · intro k
      rw [hlive, Live, hkeys, Function.update_apply, List.mem_append, List.mem_singleton]
      by_cases hkj : k = j
      · subst hkj
        have hne : ~~~d ≠ 0#64 := fun h => hd (by simpa using congrArg (~~~ ·) h)
        rw [if_pos rfl]
        exact iff_of_true (.inr rfl) ⟨hj, hne⟩
      · rw [if_neg hkj, or_iff_left hkj]
        exact hl.listed k
  · refine hl.keep ?_ fun k _ => ?_
    · simp only [Ledger.next, hc]
      rfl
    · simp only [Ledger.next, next, hc]

theorem LedgerInvariant.deleted {l : Ledger τ V} (hl : LedgerInvariant l) (key : ℕ) :
    LedgerInvariant (l.next (.delete key)) := by
  rcases delete_cases l.state key with ⟨hk, hlive, hd⟩ | ⟨_, hd⟩
  · have hlist : (l.next (.delete key)).live = l.live.erase key := by
      simp only [Ledger.next, hd, if_true]
    have hkeys : (l.next (.delete key)).state.keys = Function.update l.state.keys key 0#64 := by
      simp only [Ledger.next, next, hd]
    constructor
    · rw [hlist]
      exact hl.distinct.erase key
    · intro k
      rw [hlist, Live, hkeys, Function.update_apply, hl.distinct.mem_erase_iff, hl.listed k]
      by_cases hkj : k = key
      · simp [hkj]
      · rw [if_neg hkj]
        exact and_iff_right hkj
  · refine hl.keep ?_ fun k _ => ?_
    · simp only [Ledger.next, hd, EINVAL]
      rfl
    · simp only [Ledger.next, next, hd]

theorem ledger_inductive : Inductive (ledgerSystem τ V) representable LedgerInvariant where
  initial l hl := by
    refine ⟨hl.2 ▸ List.nodup_nil, fun k => ?_⟩
    rw [hl.2]
    exact iff_of_false List.not_mem_nil fun h => h.2 (hl.1.keys k)
  step l e hl _ hg := by
    cases e with
    | create d => exact hl.created hg
    | delete key => exact hl.deleted key
    | setspecific self key value =>
      refine hl.keep rfl fun k hk => ?_
      rcases next_keys l.state (.setspecific self key value) hk with hsame | ⟨_, he, _⟩ | ⟨he, _⟩
      · exact hsame
      · cases he
      · cases he
    | getspecific self key => exact hl
    | cleanupKey self key =>
      refine hl.keep rfl fun k hk => ?_
      rcases next_keys l.state (.cleanupKey self key) hk with hsame | ⟨_, he, _⟩ | ⟨he, _⟩
      · exact hsame
      · cases he
      · cases he
    | cleanupEnd self => exact hl.keep rfl fun k _ => rfl

def dynamicKeys : List ℕ := List.range' pthreadTsdStart (pthreadTsdEnd - pthreadTsdStart)

theorem mem_dynamicKeys {k : ℕ} : k ∈ dynamicKeys ↔ Dynamic k := by
  simp only [dynamicKeys, List.mem_range'_1, Dynamic, pthreadTsdStart, pthreadTsdEnd]

omit [DecidableEq τ] in
theorem LedgerInvariant.full_iff {l : Ledger τ V} (hl : LedgerInvariant l) :
    l.live.length = 512 ↔ ∀ k, Dynamic k → Live l.state k := by
  have hsub : l.live.Subperm dynamicKeys :=
    List.subperm_of_subset hl.distinct fun k hk => mem_dynamicKeys.mpr ((hl.listed k).mp hk).1
  have hlen : dynamicKeys.length = 512 := List.length_range'
  constructor
  · intro h k hk
    have hperm := hsub.perm_of_length_le (by omega)
    exact ((hl.listed k).mp (hperm.mem_iff.mpr (mem_dynamicKeys.mpr hk))).2
  · intro h
    have hsup : dynamicKeys.Subperm l.live :=
      List.subperm_of_subset List.nodup_range' fun k hk =>
        (hl.listed k).mpr ⟨mem_dynamicKeys.mp hk, h k (mem_dynamicKeys.mp hk)⟩
    have := hsub.length_le
    have := hsup.length_le
    omega

theorem keys_contract {l : Ledger τ V} (h : ReachableUnder (ledgerSystem τ V) representable l) :
    KeyContract l := by
  have hl := ledger_inductive.reachable h
  have hsettable : ∀ k, Dynamic k → (Settable l.state k ↔ k ∈ l.live) := by
    intro k hk
    rw [hl.listed k]
    have := hk.1
    simp only [Settable, pthreadTsdFirst, pthreadTsdStart, pthreadTsdEnd] at this ⊢
    exact ⟨fun hs => ⟨hk, hs.2.2.resolve_left (by omega)⟩, fun hs => ⟨by omega, hk.2, .inr hs.2⟩⟩
  constructor
  · exact hl.distinct
  · intro k hk
    exact ((hl.listed k).mp hk).1
  · intro k hk
    exact ⟨fun hlive => (hl.listed k).mpr ⟨hk, hlive⟩, fun hm => ((hl.listed k).mp hm).2⟩
  · intro d
    rw [hl.full_iff]
    rcases create_cases l.state d with ⟨j, hj, hdead, hc⟩ | ⟨hall, hc⟩
    · rw [hc]
      exact iff_of_false (show (0 : ℤ) ≠ EAGAIN by decide) fun hall => hdead (hall j hj)
    · rw [hc]
      exact iff_of_true rfl hall
  · intro d hfull
    rcases create_cases l.state d with ⟨j, hj, hdead, hc⟩ | ⟨hall, _⟩
    · exact ⟨j, hj, fun hm => hdead ((hl.listed j).mp hm).2, by rw [hc]⟩
    · exact absurd (hl.full_iff.mpr hall) hfull
  · intro d hfail
    rcases create_cases l.state d with ⟨j, _, _, hc⟩ | ⟨_, hc⟩
    · rw [hc] at hfail
      cases hfail
    · exact hc
  · intro k hk
    rw [hl.listed k]
    rcases delete_cases l.state k with ⟨_, hlive, hd⟩ | ⟨hdead, hd⟩
    · rw [hd]
      exact iff_of_true rfl ⟨hk, hlive⟩
    · rw [hd]
      exact iff_of_false (show EINVAL ≠ 0 by decide) hdead
  · intro k hfail
    rcases delete_cases l.state k with ⟨_, _, hd⟩ | ⟨_, hd⟩
    · rw [hd] at hfail
      exact absurd rfl hfail
    · rw [hd]
  · intro t k v hk
    rw [setspecific_eq, ← hsettable k hk]
    split
    · next hs => exact iff_of_true rfl hs
    · next hs => exact iff_of_false (show EINVAL ≠ 0 by decide) hs
  · intro t k v hfail
    rw [setspecific_eq] at hfail ⊢
    split at hfail
    · exact absurd rfl hfail
    · next hs => rw [if_neg hs]

instance (l : Ledger τ V) : (e : Event τ V) → Decidable (representable l e)
  | .create destructor => inferInstanceAs (Decidable (destructor ≠ BitVec.allOnes 64))
  | .delete _ | .setspecific .. | .getspecific .. | .cleanupKey .. | .cleanupEnd _ => isTrue trivial

instance (l : Ledger τ V) (e : Event τ V) : Decidable ((ledgerSystem τ V).Enabled l e) :=
  isTrue trivial

theorem recycled_key_contract :
    KeyContract (runTrace (ledgerSystem Bool ℕ) ⟨zeroed, []⟩
      [.create 0#64, .create 4096#64, .delete 256, .setspecific false 20 (some 3), .create 8192#64]) :=
  keys_contract (valid_trace_reachable ⟨zeroed_initial, rfl⟩ (by decide))

end TsdKeys

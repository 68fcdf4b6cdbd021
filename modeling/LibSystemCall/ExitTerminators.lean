import LibSystemCall.AtexitTable
import LibSystemCall.TlvRelease

/-! # Handlers and terminators at z_exit

`z_exit` walks the table of handlers, calls `z_cleanup` and ends the process. The thread that
calls it, its handlers and `z_cleanup` may register handlers and terminators. -/
namespace ExitTerminators

open GuardedSystem TlvTerminators TlvCleanup

/-- `cleaning` while `z_cleanup` runs. -/
inductive Phase where
  | running
  | finalizing
  | cleaning
  | exited
  deriving DecidableEq

/-- Terminators are numbered in the order of their registration, as handlers are. -/
inductive Action where
  | registered (terminator : ℕ)
  | handler (k : ℕ)
  | terminator (i : ℕ)
  deriving DecidableEq

/-- `zCleanup` is whether `z_cleanup` is set; `terminators` are all that were registered. -/
structure State where
  atexit : AtexitTable.State
  tlv : Tlv
  zCleanup : Bool
  phase : Phase
  terminators : List Entry
  log : List Action

inductive Event where
  | atexit (func : BitVec 64)
  | threadAtexit (entry : Entry)
  | exit
  | handlerReturns
  | cleanupReturns

def zAtexit (func : BitVec 64) : AtexitTable.Event := .register ⟨.std, func, 0, 0⟩

def Enabled (s : State) : Event → Prop
  | .atexit _ => s.phase ≠ .exited
  | .threadAtexit _ => s.phase ≠ .exited
  | .exit => s.phase = .running
  | .handlerReturns => s.phase = .finalizing
  | .cleanupReturns => s.phase = .cleaning

/-- `z_cxa_finalize` has come to its next handler, or returns to `z_exit`. -/
def finalized (s : State) (a : AtexitTable.State) : State :=
  { s with
    atexit := a
    log := s.log ++ (a.called.drop s.atexit.called.length).map .handler
    phase :=
      if a.loops ≠ [] then .finalizing
      else if s.zCleanup then .cleaning
      else .exited }

def next (s : State) : Event → State
  | .atexit func => { s with atexit := AtexitTable.next s.atexit (zAtexit func) }
  | .threadAtexit entry =>
    { s with
      tlv := zPthreadTlvAtexit s.tlv entry
      terminators := s.terminators ++ [entry]
      log := s.log ++ [.registered s.terminators.length] }
  | .exit => finalized s (AtexitTable.next s.atexit (AtexitTable.zCxaFinalize 0))
  | .handlerReturns => finalized s (AtexitTable.next s.atexit .handlerReturns)
  | .cleanupReturns => { s with phase := .exited }

/-- After `z_init`. -/
structure Initial [CodeAddresses] (s : State) : Prop where
  atexit : s.atexit = AtexitTable.initial
  tlv : ∃ t image, Unused t ∧ s.tlv = zPthreadTlvInitializer t image
  phase : s.phase = .running
  terminators : s.terminators = []
  log : s.log = []

def exitSystem [CodeAddresses] : System State Event := ⟨Initial, Enabled, next⟩

/-- Every terminator has run once, and after its registration before any handler. -/
structure TerminatorsRun (s : State) : Prop where
  once : ∀ i < s.terminators.length, s.log.count (.terminator i) = 1
  first : ∀ i l₁ k l₂, s.log = l₁ ++ .handler k :: l₂ → .registered i ∈ l₁ →
    .terminator i ∈ l₁

structure Invariant [CodeAddresses] (s : State) : Prop where
  table : TableOk s.tlv
  heap : HeapOk s.tlv []
  pending : pendingEntries s.tlv = s.terminators
  not_run : ∀ i, .terminator i ∉ s.log
  numbered : ∀ i, .registered i ∈ s.log → i < s.terminators.length

theorem Invariant.finalized [CodeAddresses] {s : State} (h : Invariant s) (a : AtexitTable.State) :
    Invariant (finalized s a) where
  table := h.table
  heap := h.heap
  pending := h.pending
  not_run i hi := by
    rcases List.mem_append.mp hi with hi | hi
    · exact h.not_run i hi
    · obtain ⟨k, _, hk⟩ := List.mem_map.mp hi
      cases hk
  numbered i hi := by
    rcases List.mem_append.mp hi with hi | hi
    · exact h.numbered i hi
    · obtain ⟨k, _, hk⟩ := List.mem_map.mp hi
      cases hk

theorem invariant_inductive [CodeAddresses] : Inductive exitSystem anyStep Invariant where
  initial s hs := by
    obtain ⟨t, image, ht, htlv⟩ := hs.tlv
    have hinit := ht.invariant image
    refine ⟨htlv ▸ hinit.table, htlv ▸ hinit.heap, ?_, by simp [hs.log], by simp [hs.log]⟩
    rw [hs.terminators, htlv]
    exact ht.pending image
  step s e h he _ := by
    cases e with
    | atexit func => exact ⟨h.table, h.heap, h.pending, h.not_run, h.numbered⟩
    | threadAtexit entry =>
      have hr := atexit_registered h.table h.heap entry
      refine ⟨hr.table, hr.heap, ?_, fun i hi => ?_, fun i hi => ?_⟩
      · exact hr.pending.trans (by rw [h.pending]; rfl)
      · rcases List.mem_append.mp hi with hi | hi
        · exact h.not_run i hi
        · simp at hi
      · change i < (s.terminators ++ [entry]).length
        rw [List.length_append]
        rcases List.mem_append.mp hi with hi | hi
        · exact Nat.lt_succ_of_lt (h.numbered i hi)
        · obtain rfl : i = s.terminators.length := by simpa using hi
          exact Nat.lt_succ_self _
    | exit => exact h.finalized _
    | handlerReturns => exact h.finalized _
    | cleanupReturns => exact ⟨h.table, h.heap, h.pending, h.not_run, h.numbered⟩

/-- `z_exit` leaves every terminator in the list of its thread. -/
theorem terminators_left [CodeAddresses] {s : State} (h : Reachable exitSystem s) :
    pendingEntries s.tlv = s.terminators :=
  (invariant_inductive.reachable h).pending

theorem terminators_run_iff [CodeAddresses] {s : State} (h : Reachable exitSystem s) :
    s.phase = .exited → (TerminatorsRun s ↔ s.terminators = []) := by
  have hi := invariant_inductive.reachable h
  intro _
  constructor
  · intro hrun
    by_contra hne
    have hcount := hrun.once 0 (List.length_pos_iff.mpr hne)
    rw [List.count_eq_zero_of_not_mem (hi.not_run 0)] at hcount
    cases hcount
  · intro hnil
    constructor
    · intro i hlt
      rw [hnil] at hlt
      cases hlt
    · intro i l₁ k l₂ hlog hmem
      have hlt := hi.numbered i (hlog ▸ List.mem_append_left _ hmem)
      rw [hnil] at hlt
      cases hlt

instance [CodeAddresses] (s : State) (e : Event) : Decidable (exitSystem.Enabled s e) := by
  change Decidable (Enabled s e)
  cases e <;> unfold Enabled <;> infer_instance

local instance : CodeAddresses := placed

def start : State :=
  ⟨AtexitTable.initial, zPthreadTlvInitializer unusedTlv none, false, .running, [], []⟩

theorem start_initial : exitSystem.Initial start :=
  ⟨rfl, ⟨unusedTlv, none, unusedTlv_unused, rfl⟩, rfl, rfl, rfl⟩

/-- The handler 0 registers another one while it runs. -/
theorem handlers_only_exit :
    (runTrace exitSystem start
      [.atexit 0x1000, .exit, .atexit 0x2000, .handlerReturns, .handlerReturns]).phase =
        .exited ∧
      (TerminatorsRun (runTrace exitSystem start
        [.atexit 0x1000, .exit, .atexit 0x2000, .handlerReturns, .handlerReturns]) ↔
      (runTrace exitSystem start
        [.atexit 0x1000, .exit, .atexit 0x2000, .handlerReturns,
          .handlerReturns]).terminators = []) := by
  refine ⟨by decide, terminators_run_iff (valid_trace_reachable start_initial ?_) ?_⟩
  · decide
  · decide

def terminatorAndHandler : List Event :=
  [.threadAtexit ⟨0x3000, 0, 0⟩, .atexit 0x1000, .exit, .handlerReturns]

theorem exit_skips_terminator :
    let s := runTrace exitSystem start terminatorAndHandler
    Reachable exitSystem s ∧ s.phase = .exited ∧ s.log = [.registered 0, .handler 0] ∧
      ¬ TerminatorsRun s := by
  refine ⟨valid_trace_reachable start_initial (by decide), by decide, by decide, fun h => ?_⟩
  exact absurd (h.once 0 (by decide)) (by decide)

end ExitTerminators

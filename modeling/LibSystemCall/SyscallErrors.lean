import LibSystemCall.ErrnoCell

/-! # Failed system calls and cancellation

Before `z_cerror` stores an error it may ask the kernel whether the thread is cancelled. That is
a system call as well, which can fail and store an error of its own. -/
namespace SyscallErrors

open ErrnoCell ByteMemory

def EINTR : BitVec 32 := 4

abbrev Reply := Except (BitVec 32) (BitVec 64)

/-- How a call ends: with a result, or in `z_pthread_exit(self, PTHREAD_CANCELED)`. -/
inductive Outcome where
  | returned (w : World) (result : BitVec 64)
  | exited (cancelError : BitVec 32)

def stored (w : World) (err : BitVec 32) : Outcome :=
  .returned (zCerrorNocancel w err).1 (zCerrorNocancel w err).2

def Asks (unixConforming : Bool) (err : BitVec 32) : Prop :=
  err &&& 0xff = EINTR ∧ unixConforming = true

instance (unixConforming : Bool) (err : BitVec 32) : Decidable (Asks unixConforming err) :=
  inferInstanceAs (Decidable (_ ∧ _))

/-- `z_pthread_canceled` has failed and returned -1, if its own error did not end the thread. -/
def goOn (err : BitVec 32) : Outcome → Outcome
  | .returned w _ => stored w err
  | .exited cancelError => .exited cancelError

/-- `replies` are those to the calls of `z_pthread_canceled(0)`, with what is left of them
afterwards; there is no outcome when there are too few. -/
def zCerror (unixConforming : Bool) :
    List Reply → World → BitVec 32 → Option (Outcome × List Reply)
  | [], w, err => if Asks unixConforming err then none else some (stored w err, [])
  | .ok result :: replies, w, err =>
    if Asks unixConforming err then
      if result.setWidth 32 = 0#32 then some (.exited err, replies)
      else some (stored w err, replies)
    else some (stored w err, .ok result :: replies)
  | .error e :: replies, w, err =>
    if Asks unixConforming err then
      (zCerror unixConforming replies w e).map fun r => (goOn err r.1, r.2)
    else some (stored w err, .error e :: replies)

/-- `z_syscall_unix`, from the reply of the kernel on. -/
def zSyscallUnix (unixConforming : Bool) (replies : List Reply) (w : World) :
    Reply → Option (Outcome × List Reply)
  | .ok result => some (.returned w result, replies)
  | .error err => zCerror unixConforming replies w err

/-- The calls of a thread one after another: what they have returned, and the state after them or
the error of the call in which the thread was cancelled. -/
def runCalls (unixConforming : Bool) :
    List Reply → List Reply → World → Option (List (BitVec 64) × Except (BitVec 32) World)
  | _, [], w => some ([], .ok w)
  | replies, call :: calls, w =>
    match zSyscallUnix unixConforming replies w call with
    | none => none
    | some (.exited err, _) => some ([], .error err)
    | some (.returned w' result, rest) =>
      (runCalls unixConforming rest calls w').map fun r => (result :: r.1, r.2)

/-! What the calls should do: -1 and the error of the call itself. -/

def resultOf : Reply → BitVec 64
  | .ok result => result
  | .error _ => -1

def storeOf : Reply → Option ErrnoStore
  | .ok _ => none
  | .error err => some (.failedCall err)

variable {w : World} {t : ℕ} {unixConforming : Bool}

theorem owns_failed (h : OwnsErrno w t) (err : BitVec 32) :
    OwnsErrno (zCerrorNocancel w err).1 t :=
  owns_of_effect h (apply_effect h (.failedCall err))

theorem nocancel_twice (h : OwnsErrno w t) (e err : BitVec 32) :
    zCerrorNocancel (zCerrorNocancel w e).1 err = zCerrorNocancel w err := by
  have hslot := (owns_failed h e).slot.trans h.slot.symm
  have hsame : ∀ (v : World) (g : BitVec 64),
      zTsdGetDirect { v with errnoGlobal := g } tsdErrno = zTsdGetDirect v tsdErrno :=
    fun _ _ => rfl
  simp only [zCerrorNocancel, hsame] at hslot ⊢
  rw [hslot]
  split_ifs with hnull
  · simp only [storeWord]
    rw [store_overwrite _ _ (by simp)]
  · rfl

theorem stored_returned {w w' : World} {err : BitVec 32} {result : BitVec 64}
    (h : stored w err = .returned w' result) :
    w' = (zCerrorNocancel w err).1 ∧ result = -1 := by
  obtain ⟨hw, hr⟩ := Outcome.returned.inj h
  exact ⟨hw.symm, hr.symm⟩

/-- Whatever the inner calls have replied, a call that returns has stored its own error. -/
theorem zCerror_stored {replies : List Reply} : ∀ {w : World} {err : BitVec 32} {w' : World}
    {result : BitVec 64} {rest : List Reply}, OwnsErrno w t →
    zCerror unixConforming replies w err = some (.returned w' result, rest) →
    w' = (zCerrorNocancel w err).1 ∧ result = -1 := by
  induction replies with
  | nil =>
    intro w err w' result rest _ h
    rw [zCerror] at h
    split_ifs at h
    exact stored_returned (Prod.mk.inj (Option.some.inj h)).1
  | cons reply replies ih =>
    intro w err w' result rest hown h
    cases reply with
    | ok r =>
      rw [zCerror] at h
      split_ifs at h
      · cases (Prod.mk.inj (Option.some.inj h)).1
      · exact stored_returned (Prod.mk.inj (Option.some.inj h)).1
      · exact stored_returned (Prod.mk.inj (Option.some.inj h)).1
    | error e =>
      rw [zCerror] at h
      split_ifs at h
      · obtain ⟨⟨inner, rest'⟩, hinner, heq⟩ := Option.map_eq_some_iff.mp h
        have hgo := (Prod.mk.inj heq).1
        cases inner with
        | exited e' => simp only [goOn, reduceCtorEq] at hgo
        | returned v r =>
          obtain ⟨hv, -⟩ := ih hown hinner
          have htwice : goOn err (.returned v r) = stored w err := by
            rw [goOn, stored, stored, hv, nocancel_twice hown]
          exact stored_returned (htwice.symm.trans hgo)
      · exact stored_returned (Prod.mk.inj (Option.some.inj h)).1

/-- A thread is cancelled only when the program conforms and the kernel has said so. -/
theorem zCerror_exited {replies : List Reply} : ∀ {w : World} {err e : BitVec 32}
    {rest : List Reply}, zCerror unixConforming replies w err = some (.exited e, rest) →
    Asks unixConforming err ∧ ∃ result, .ok result ∈ replies ∧ result.setWidth 32 = 0#32 := by
  induction replies with
  | nil =>
    intro w err e rest h
    rw [zCerror] at h
    split_ifs at h
    cases (Prod.mk.inj (Option.some.inj h)).1
  | cons reply replies ih =>
    intro w err e rest h
    cases reply with
    | ok r =>
      rw [zCerror] at h
      split_ifs at h with hasks hzero
      · exact ⟨hasks, r, List.mem_cons_self, hzero⟩
      · cases (Prod.mk.inj (Option.some.inj h)).1
      · cases (Prod.mk.inj (Option.some.inj h)).1
    | error e' =>
      rw [zCerror] at h
      split_ifs at h with hasks
      · obtain ⟨⟨inner, rest'⟩, hinner, heq⟩ := Option.map_eq_some_iff.mp h
        cases inner with
        | returned v r => cases (Prod.mk.inj heq).1
        | exited e'' =>
          obtain ⟨-, result, hmem, hzero⟩ := ih hinner
          exact ⟨hasks, result, List.mem_cons_of_mem _ hmem, hzero⟩
      · cases (Prod.mk.inj (Option.some.inj h)).1

theorem zCerror_rest {replies : List Reply} : ∀ {w : World} {err : BitVec 32} {o : Outcome}
    {rest : List Reply}, zCerror unixConforming replies w err = some (o, rest) →
    rest ⊆ replies := by
  induction replies with
  | nil =>
    intro w err o rest h
    rw [zCerror] at h
    split_ifs at h
    obtain ⟨-, rfl⟩ := Prod.mk.inj (Option.some.inj h)
    exact List.Subset.refl _
  | cons reply replies ih =>
    intro w err o rest h
    cases reply with
    | ok r =>
      rw [zCerror] at h
      split_ifs at h <;> obtain ⟨-, rfl⟩ := Prod.mk.inj (Option.some.inj h)
      · exact List.subset_cons_self _ _
      · exact List.subset_cons_self _ _
      · exact List.Subset.refl _
    | error e =>
      rw [zCerror] at h
      split_ifs at h
      · obtain ⟨⟨inner, rest'⟩, hinner, heq⟩ := Option.map_eq_some_iff.mp h
        obtain ⟨-, rfl⟩ := Prod.mk.inj heq
        exact List.subset_cons_of_subset _ (ih hinner)
      · obtain ⟨-, rfl⟩ := Prod.mk.inj (Option.some.inj h)
        exact List.Subset.refl _

theorem zCerror_plain (replies : List Reply) (w : World) {err : BitVec 32}
    (h : ¬Asks unixConforming err) :
    zCerror unixConforming replies w err = some (stored w err, replies) := by
  cases replies with
  | nil => rw [zCerror, if_neg h]
  | cons reply replies => cases reply <;> rw [zCerror, if_neg h]

/-- The kernel denies that the thread is cancelled, with an error that is not an interruption. -/
def Denies (unixConforming : Bool) (reply : Reply) : Prop :=
  ∃ e, reply = .error e ∧ ¬Asks unixConforming e

theorem zCerror_denied (h : OwnsErrno w t) {reply : Reply} (hreply : Denies unixConforming reply)
    (replies : List Reply) (err : BitVec 32) :
    ∃ rest, zCerror unixConforming (reply :: replies) w err = some (stored w err, rest) ∧
      replies.length ≤ rest.length ∧ rest ⊆ reply :: replies := by
  obtain ⟨e, rfl, he⟩ := hreply
  by_cases hasks : Asks unixConforming err
  · refine ⟨replies, ?_, Nat.le_refl _, List.subset_cons_self _ _⟩
    have htwice : goOn err (stored w e) = stored w err := by
      rw [stored, goOn, stored, stored, nocancel_twice h]
    rw [zCerror, if_pos hasks, zCerror_plain replies w he, Option.map_some, htwice]
  · exact ⟨.error e :: replies, zCerror_plain _ w hasks, Nat.le_succ _, List.Subset.refl _⟩

theorem run_error (w : World) (err : BitVec 32) (calls : List Reply) :
    ErrnoCell.run w ((.error err :: calls).filterMap storeOf) =
      ErrnoCell.run (zCerrorNocancel w err).1 (calls.filterMap storeOf) := by
  have hstore : storeOf (.error err) = some (.failedCall err) := rfl
  rw [List.filterMap_cons_some hstore, ErrnoCell.run, List.foldl_cons, apply, ErrnoCell.run]

theorem run_ok (w : World) (result : BitVec 64) (calls : List Reply) :
    ErrnoCell.run w ((.ok result :: calls).filterMap storeOf) =
      ErrnoCell.run w (calls.filterMap storeOf) := by
  have hnone : storeOf (.ok result) = none := rfl
  rw [List.filterMap_cons_none hnone]

theorem runCalls_returned {calls : List Reply} : ∀ {replies : List Reply} {w w' : World}
    {results : List (BitVec 64)}, OwnsErrno w t →
    runCalls unixConforming replies calls w = some (results, .ok w') →
    results = calls.map resultOf ∧ w' = ErrnoCell.run w (calls.filterMap storeOf) := by
  induction calls with
  | nil =>
    intro replies w w' results _ h
    rw [runCalls] at h
    obtain ⟨rfl, heq⟩ := Prod.mk.inj (Option.some.inj h)
    exact ⟨rfl, (Except.ok.inj heq).symm⟩
  | cons call calls ih =>
    intro replies w w' results hown h
    rw [runCalls] at h
    cases call with
    | ok result =>
      simp only [zSyscallUnix] at h
      obtain ⟨⟨later, final⟩, hrun, heq⟩ := Option.map_eq_some_iff.mp h
      obtain ⟨rfl, rfl⟩ := Prod.mk.inj heq
      obtain ⟨hresults, hw⟩ := ih hown hrun
      rw [run_ok, hresults]
      exact ⟨rfl, hw⟩
    | error err =>
      simp only [zSyscallUnix] at h
      split at h
      · cases h
      · cases (Prod.mk.inj (Option.some.inj h)).2
      · next v result rest hcall =>
        obtain ⟨hv, rfl⟩ := zCerror_stored hown hcall
        obtain ⟨⟨later, final⟩, hrun, heq⟩ := Option.map_eq_some_iff.mp h
        obtain ⟨rfl, rfl⟩ := Prod.mk.inj heq
        rw [hv] at hrun
        obtain ⟨hresults, hw⟩ := ih (owns_failed hown err) hrun
        rw [run_error, hresults]
        exact ⟨rfl, hw⟩

theorem runCalls_exited {calls : List Reply} : ∀ {replies : List Reply} {w : World}
    {results : List (BitVec 64)} {e : BitVec 32}, OwnsErrno w t →
    runCalls unixConforming replies calls w = some (results, .error e) →
    (∃ result, .ok result ∈ replies ∧ result.setWidth 32 = 0#32) ∧
      ∃ done err later, calls = done ++ .error err :: later ∧ Asks unixConforming err ∧
        results = done.map resultOf := by
  induction calls with
  | nil =>
    intro replies w results e _ h
    rw [runCalls] at h
    cases (Prod.mk.inj (Option.some.inj h)).2
  | cons call calls ih =>
    intro replies w results e hown h
    rw [runCalls] at h
    cases call with
    | ok result =>
      simp only [zSyscallUnix] at h
      obtain ⟨⟨later, final⟩, hrun, heq⟩ := Option.map_eq_some_iff.mp h
      obtain ⟨rfl, rfl⟩ := Prod.mk.inj heq
      obtain ⟨hreply, done, err, rest, rfl, hasks, rfl⟩ := ih hown hrun
      exact ⟨hreply, .ok result :: done, err, rest, rfl, hasks, rfl⟩
    | error err =>
      simp only [zSyscallUnix] at h
      split at h
      · cases h
      · next e' rest hcall =>
        obtain ⟨rfl, -⟩ := Prod.mk.inj (Option.some.inj h)
        obtain ⟨hasks, hreply⟩ := zCerror_exited hcall
        exact ⟨hreply, [], err, calls, rfl, hasks, rfl⟩
      · next v result rest hcall =>
        obtain ⟨hv, rfl⟩ := zCerror_stored hown hcall
        obtain ⟨⟨later, final⟩, hrun, heq⟩ := Option.map_eq_some_iff.mp h
        obtain ⟨rfl, rfl⟩ := Prod.mk.inj heq
        rw [hv] at hrun
        obtain ⟨⟨r, hr, hzero⟩, done, err', rest', rfl, hasks, rfl⟩ :=
          ih (owns_failed hown err) hrun
        exact ⟨⟨r, zCerror_rest hcall hr, hzero⟩, .error err :: done, err', rest', rfl, hasks, rfl⟩

theorem runCalls_denied {calls : List Reply} : ∀ {replies : List Reply} {w : World},
    OwnsErrno w t → (∀ reply ∈ replies, Denies unixConforming reply) →
    calls.length ≤ replies.length →
    ∃ w', runCalls unixConforming replies calls w = some (calls.map resultOf, .ok w') := by
  induction calls with
  | nil => exact fun _ _ _ => ⟨_, rfl⟩
  | cons call calls ih =>
    intro replies w hown hdenies hlen
    rw [List.length_cons] at hlen
    cases call with
    | ok result =>
      obtain ⟨w', hrun⟩ := ih hown hdenies (Nat.le_of_succ_le hlen)
      exact ⟨w', by rw [runCalls]; simp only [zSyscallUnix, hrun]; rfl⟩
    | error err =>
      obtain _ | ⟨reply, replies⟩ := replies
      · exact absurd hlen (Nat.not_succ_le_zero _)
      obtain ⟨rest, hcall, hrest, hsub⟩ :=
        zCerror_denied hown (hdenies reply List.mem_cons_self) replies err
      obtain ⟨w', hrun⟩ := ih (owns_failed hown err) (fun r hr => hdenies r (hsub hr))
        (Nat.le_trans (Nat.le_of_succ_le_succ hlen) hrest)
      refine ⟨w', ?_⟩
      rw [runCalls]
      simp only [zSyscallUnix, hcall, stored, hrun]
      rfl

/-- The system calls of a thread return what the kernel has replied, and -1 for an error; then
the errno cell has the error of the last failed call, whatever the calls that ask for a
cancellation have stored in between. A thread ends in a call only when that call was interrupted,
the program conforms and the kernel has said that the thread is cancelled; if the kernel denies
it each time, all calls return. -/
theorem calls_keep_errno {w : World} {t : ℕ} (h : OwnsErrno w t) (unixConforming : Bool)
    (replies calls : List Reply) :
    (∀ results w', runCalls unixConforming replies calls w = some (results, .ok w') →
      results = calls.map resultOf ∧ w' = ErrnoCell.run w (calls.filterMap storeOf) ∧
        ∀ o, (calls.filterMap storeOf).getLast? = some o →
          loadWord 32 w'.mem (errnoAddr t) = o.code) ∧
    (∀ results e, runCalls unixConforming replies calls w = some (results, .error e) →
      (∃ result, .ok result ∈ replies ∧ result.setWidth 32 = 0#32) ∧
        ∃ done err later, calls = done ++ .error err :: later ∧ Asks unixConforming err ∧
          results = done.map resultOf) ∧
    ((∀ reply ∈ replies, Denies unixConforming reply) → calls.length ≤ replies.length →
      ∃ w', runCalls unixConforming replies calls w = some (calls.map resultOf, .ok w')) := by
  refine ⟨fun results w' hrun => ?_, fun results e hrun => runCalls_exited h hrun,
    runCalls_denied h⟩
  obtain ⟨hresults, rfl⟩ := runCalls_returned h hrun
  exact ⟨hresults, rfl, fun o ho => (run_effect h _).cell o ho⟩

/-- A call that is interrupted, asked about with the reply `EINVAL`, between two others. -/
theorem calls_keep_errno_interrupted :
    let w : World := ⟨initRecord (fun _ => 0) 4096 0x700000000000,
      4096 + ThreadRecord.threadShape.offset .tsd, 0⟩
    ∃ w', runCalls true [.error 22, .error 22, .error 22] [.ok 3, .error EINTR, .ok 5] w =
      some ([3, -1, 5], .ok w') ∧ loadWord 32 w'.mem (errnoAddr 4096) = EINTR := by
  intro w
  have hown : OwnsErrno w 4096 := owns_initRecord _ _ _ (by decide +kernel)
  obtain ⟨hreturned, -, hdenied⟩ :=
    calls_keep_errno hown true [.error 22, .error 22, .error 22] [.ok 3, .error EINTR, .ok 5]
  have hdenies : Denies true (.error 22) := ⟨22, rfl, by decide⟩
  obtain ⟨w', hrun⟩ := hdenied (by simpa using hdenies) (by decide)
  exact ⟨w', hrun, (hreturned _ w' hrun).2.2 (.failedCall EINTR) rfl⟩

end SyscallErrors

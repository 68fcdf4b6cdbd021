import Mathlib.Data.List.Basic
import Mathlib.Logic.Function.Basic

/-! # Cleanup handlers at z_pthread_exit

`z_pthread_cleanup_push` links a record of its own stack frame, `z_pthread_cleanup_pop` unlinks
it. `z_pthread_exit` calls the newest handler and unlinks it afterwards, so a handler that exits
the thread again is called again. -/
namespace ThreadExitHandlers

structure HandlerRec where
  routine : ℕ
  arg : ℕ
  next : ℕ

/-- `frame` is where the next record on the machine stack goes; the null pointer is 0. `calls`
are the handlers called with their arguments, `terminated` the values given to
`z_pthread_terminate`. -/
structure State where
  records : ℕ → HandlerRec
  cleanupStack : ℕ
  frame : ℕ
  calls : List (ℕ × ℕ)
  tsdCleanups : ℕ
  terminated : List ℕ

def cleanupPush (routine arg : ℕ) (s : State) : State :=
  { s with
    records := Function.update s.records s.frame ⟨routine, arg, s.cleanupStack⟩
    cleanupStack := s.frame
    frame := s.frame + 1 }

/-- The pop that belongs to the push of the record at `handler`; the frame ends with it. -/
def cleanupPop (handler : ℕ) (s : State) : State :=
  { s with cleanupStack := (s.records handler).next, frame := handler }

inductive Op where
  | push (routine arg : ℕ)
  | pop
  deriving DecidableEq, Repr

/-- Pushes and pops in the code of a handler; `own` are the records it has linked, newest
first, and a pop belongs to one of them. -/
def runOps : List Op → List ℕ → State → State
  | [], _, s => s
  | .push routine arg :: ops, own, s => runOps ops (s.frame :: own) (cleanupPush routine arg s)
  | .pop :: ops, handler :: own, s => runOps ops own (cleanupPop handler s)
  | .pop :: ops, [], s => runOps ops [] s

/-- What a handler does: its pushes and pops, and whether it ends in `z_pthread_exit` with a
value or returns. -/
structure Body where
  ops : List Op
  exits : Option ℕ

def callHandler (b : Body) (s : State) : State :=
  let handler := s.records s.cleanupStack
  runOps b.ops [] { s with calls := s.calls ++ [(handler.routine, handler.arg)] }

/-- `self->__cleanup_stack = handler->__next` after the return; the frames of the call are
gone. -/
def unlink (s s' : State) : State :=
  { s' with cleanupStack := (s'.records s.cleanupStack).next, frame := s.frame }

theorem unlink_calls (s s' : State) : (unlink s s').calls = s'.calls := rfl

theorem unlink_tsdCleanups (s s' : State) : (unlink s s').tsdCleanups = s'.tsdCleanups := rfl

theorem unlink_terminated (s s' : State) : (unlink s s').terminated = s'.terminated := rfl

/-- `body n` is what the `n`-th call does. A handler that exits does not return. -/
def zPthreadExit (body : ℕ → Body) : ℕ → ℕ → State → Option State
  | 0, _, _ => none
  | fuel + 1, exitValue, s =>
    if s.cleanupStack = 0 then
      some { s with
        tsdCleanups := s.tsdCleanups + 1
        terminated := s.terminated ++ [exitValue] }
    else
      let b := body s.calls.length
      match b.exits with
      | some value => zPthreadExit body fuel value (callHandler b s)
      | none => zPthreadExit body fuel exitValue (unlink s (callHandler b s))

def opsList : List Op → List (ℕ × ℕ) → List (ℕ × ℕ)
  | [], own => own
  | .push routine arg :: ops, own => opsList ops ((routine, arg) :: own)
  | .pop :: ops, own => opsList ops own.tail

def exitList (body : ℕ → Body) :
    ℕ → ℕ → List (ℕ × ℕ) → List (ℕ × ℕ) → Option (List (ℕ × ℕ) × ℕ)
  | 0, _, _, _ => none
  | _ + 1, exitValue, [], calls => some (calls, exitValue)
  | fuel + 1, exitValue, h :: rest, calls =>
    let b := body calls.length
    match b.exits with
    | some value => exitList body fuel value (opsList b.ops [] ++ h :: rest) (calls ++ [h])
    | none => exitList body fuel exitValue rest (calls ++ [h])

/-- The handlers from the record at `top` on, each with its address; the frames below are older
and lie below it. -/
inductive Chain (records : ℕ → HandlerRec) : ℕ → ℕ → List (ℕ × ℕ × ℕ) → Prop where
  | nil (frame) : Chain records 0 frame []
  | cons {a frame routine arg next ns} : 0 < a → a < frame →
    records a = ⟨routine, arg, next⟩ → Chain records next a ns →
    Chain records a frame ((a, routine, arg) :: ns)

theorem Chain.top_null {records : ℕ → HandlerRec} {top frame : ℕ}
    (h : Chain records top frame []) : top = 0 := by
  cases h
  rfl

theorem Chain.uncons {records : ℕ → HandlerRec} {top frame : ℕ} {n : ℕ × ℕ × ℕ}
    {ns : List (ℕ × ℕ × ℕ)} (h : Chain records top frame (n :: ns)) :
    0 < top ∧ top < frame ∧ n = (top, (records top).routine, (records top).arg) ∧
      Chain records (records top).next top ns := by
  cases h with
  | cons hpos hlt hrec hns =>
    rw [hrec]
    exact ⟨hpos, hlt, rfl, hns⟩

theorem Chain.mono {records : ℕ → HandlerRec} {top frame frame' : ℕ} {ns : List (ℕ × ℕ × ℕ)}
    (h : Chain records top frame ns) (hle : frame ≤ frame') : Chain records top frame' ns := by
  cases h with
  | nil => exact .nil _
  | cons hpos hlt hrec hns => exact .cons hpos (Nat.lt_of_lt_of_le hlt hle) hrec hns

theorem Chain.update {records : ℕ → HandlerRec} {top frame a : ℕ} {ns : List (ℕ × ℕ × ℕ)}
    (h : Chain records top frame ns) (ha : frame ≤ a) (r : HandlerRec) :
    Chain (Function.update records a r) top frame ns := by
  induction h with
  | nil => exact .nil _
  | cons hpos hlt hrec _ ih =>
    refine .cons hpos hlt ?_ (ih (by omega))
    rw [Function.update_of_ne (by omega), hrec]

theorem Chain.older {records : ℕ → HandlerRec} {top frame : ℕ} {mine ns : List (ℕ × ℕ × ℕ)}
    (h : Chain records top frame (mine ++ ns)) : ∃ top' frame', Chain records top' frame' ns := by
  induction mine generalizing top frame with
  | nil => exact ⟨top, frame, h⟩
  | cons n mine ih => exact ih h.uncons.2.2.2

theorem Chain.runOps (ops : List Op) : ∀ (s : State) (mine : List (ℕ × ℕ × ℕ))
    {ns : List (ℕ × ℕ × ℕ)},
    0 < s.frame → Chain s.records s.cleanupStack s.frame (mine ++ ns) →
    let t := ThreadExitHandlers.runOps ops (mine.map (·.1)) s
    0 < t.frame ∧ (∃ mine', mine'.map (·.2) = opsList ops (mine.map (·.2)) ∧
      Chain t.records t.cleanupStack t.frame (mine' ++ ns)) ∧
      t.calls = s.calls ∧ t.tsdCleanups = s.tsdCleanups ∧ t.terminated = s.terminated := by
  induction ops with
  | nil => intro s mine ns hpos h; exact ⟨hpos, ⟨mine, rfl, h⟩, rfl, rfl, rfl⟩
  | cons op ops ih =>
    intro s mine ns hpos h
    cases op with
    | push routine arg =>
      have hpush : Chain (cleanupPush routine arg s).records s.frame (s.frame + 1)
          ((s.frame, routine, arg) :: mine ++ ns) :=
        .cons hpos (Nat.lt_succ_self _) (Function.update_self ..) (h.update (Nat.le_refl _) _)
      exact ih (cleanupPush routine arg s) ((s.frame, routine, arg) :: mine) (Nat.succ_pos _) hpush
    | pop =>
      cases mine with
      | nil => exact ih s [] hpos h
      | cons n mine =>
        obtain ⟨ha, -, rfl, hns⟩ := h.uncons
        exact ih (cleanupPop s.cleanupStack s) mine ha hns

theorem callHandler_chain (b : Body) {s : State} {n : ℕ × ℕ × ℕ} {ns : List (ℕ × ℕ × ℕ)}
    (hpos : 0 < s.frame) (h : Chain s.records s.cleanupStack s.frame (n :: ns)) :
    0 < (callHandler b s).frame ∧
      (∃ mine, mine.map (·.2) = opsList b.ops [] ∧ Chain (callHandler b s).records
        (callHandler b s).cleanupStack (callHandler b s).frame (mine ++ n :: ns)) ∧
      (callHandler b s).calls = s.calls ++ [n.2] ∧
      (callHandler b s).tsdCleanups = s.tsdCleanups ∧
      (callHandler b s).terminated = s.terminated := by
  obtain ⟨-, -, rfl, -⟩ := h.uncons
  exact Chain.runOps b.ops { s with calls := s.calls ++
    [((s.records s.cleanupStack).routine, (s.records s.cleanupStack).arg)] } [] hpos h

theorem unlink_chain (b : Body) {s : State} {n : ℕ × ℕ × ℕ} {ns : List (ℕ × ℕ × ℕ)}
    (hpos : 0 < s.frame) (h : Chain s.records s.cleanupStack s.frame (n :: ns)) :
    Chain (unlink s (callHandler b s)).records (unlink s (callHandler b s)).cleanupStack
      s.frame ns := by
  obtain ⟨-, ⟨mine, -, hchain⟩, -⟩ := callHandler_chain b hpos h
  obtain ⟨-, hlt, htop, -⟩ := h.uncons
  obtain ⟨_, _, hrest⟩ := hchain.older
  obtain ⟨-, -, hsame, hold⟩ := hrest.uncons
  obtain rfl := congrArg Prod.fst (htop.symm.trans hsame)
  exact hold.mono (Nat.le_of_lt hlt)

/-- `z_pthread_exit` on the records does what `exitList` does on the handlers. -/
theorem exit_refines (body : ℕ → Body) (fuel : ℕ) : ∀ (exitValue : ℕ) {s : State}
    {ns : List (ℕ × ℕ × ℕ)}, 0 < s.frame → Chain s.records s.cleanupStack s.frame ns →
    (zPthreadExit body fuel exitValue s).map
        (fun t => (t.calls, t.tsdCleanups, t.terminated)) =
      (exitList body fuel exitValue (ns.map (·.2)) s.calls).map
        (fun r => (r.1, s.tsdCleanups + 1, s.terminated ++ [r.2])) := by
  induction fuel with
  | zero => intro exitValue s ns _ _; rfl
  | succ fuel ih =>
    intro exitValue s ns hpos h
    cases ns with
    | nil =>
      rw [zPthreadExit, if_pos h.top_null]
      rfl
    | cons n ns =>
      obtain ⟨hframe, ⟨mine, hmine, hchain⟩, hcalls, htsd, hterm⟩ :=
        callHandler_chain (body s.calls.length) hpos h
      have htop := h.uncons.1
      rw [zPthreadExit, if_neg (by omega), List.map_cons, exitList]
      dsimp only
      cases (body s.calls.length).exits with
      | some value =>
        have := ih value hframe hchain
        rwa [hcalls, htsd, hterm, List.map_append, hmine] at this
      | none =>
        have := @ih exitValue (unlink s (callHandler (body s.calls.length) s)) ns hpos
          (unlink_chain _ hpos h)
        rwa [unlink_calls, unlink_tsdCleanups, unlink_terminated, hcalls, htsd, hterm] at this

variable {body : ℕ → Body}

/-- The value of the last of `count` calls that exits, from the call of number `first` on. -/
def lastExit (body : ℕ → Body) (first count exitValue : ℕ) : ℕ :=
  ((List.range' first count).filterMap fun n => (body n).exits).getLast?.getD exitValue

theorem lastExit_succ (first count exitValue : ℕ) :
    lastExit body first (count + 1) exitValue =
      lastExit body (first + 1) count ((body first).exits.getD exitValue) := by
  unfold lastExit
  rw [List.range'_succ]
  cases hexits : (body first).exits with
  | none =>
    rw [List.filterMap_cons, hexits]
    rfl
  | some value =>
    rw [List.filterMap_cons, hexits, List.getLast?_cons]
    rfl

theorem exitList_returns {hs : List (ℕ × ℕ)} : ∀ {calls : List (ℕ × ℕ)},
    (∀ n, calls.length ≤ n → (body n).exits = none) → ∀ (fuel exitValue : ℕ),
    hs.length < fuel → exitList body fuel exitValue hs calls = some (calls ++ hs, exitValue) := by
  induction hs with
  | nil =>
    intro calls _ fuel exitValue hfuel
    obtain ⟨fuel, rfl⟩ := Nat.exists_eq_add_one.mpr hfuel
    rw [exitList, List.append_nil]
  | cons h rest ih =>
    intro calls hnone fuel exitValue hfuel
    obtain ⟨fuel, rfl⟩ := Nat.exists_eq_add_one.mpr (Nat.zero_lt_of_lt hfuel)
    rw [List.length_cons] at hfuel
    rw [exitList]
    simp only [hnone _ (Nat.le_refl _)]
    rw [ih (fun n hn => hnone n (by rw [List.length_append] at hn; omega)) fuel exitValue
      (by omega), List.append_assoc]
    rfl

/-- No handler is passed over, an older one comes after a newer one, and the last exit counts. -/
theorem exitList_calls {fuel : ℕ} : ∀ {exitValue : ℕ} {hs calls : List (ℕ × ℕ)}
    {r : List (ℕ × ℕ) × ℕ}, exitList body fuel exitValue hs calls = some r →
    ∃ new, r = (calls ++ new, lastExit body calls.length new.length exitValue) ∧
      hs.Sublist new := by
  induction fuel with
  | zero => intro _ _ _ _ h; cases h
  | succ fuel ih =>
    intro exitValue hs calls r h
    cases hs with
    | nil =>
      obtain rfl := Option.some.inj h
      exact ⟨[], by rw [List.append_nil]; rfl, .slnil⟩
    | cons hd rest =>
      have hlength : (calls ++ [hd]).length = calls.length + 1 := List.length_append
      rw [exitList] at h
      cases hexits : (body calls.length).exits with
      | some value =>
        rw [hexits] at h
        obtain ⟨new, rfl, hsub⟩ := ih h
        refine ⟨hd :: new, ?_, ((List.sublist_append_right _ _).trans hsub).cons hd⟩
        rw [List.length_cons, lastExit_succ, hexits, hlength, List.append_assoc]
        rfl
      | none =>
        rw [hexits] at h
        obtain ⟨new, rfl, hsub⟩ := ih h
        refine ⟨hd :: new, ?_, hsub.cons_cons hd⟩
        rw [List.length_cons, lastExit_succ, hexits, hlength, List.append_assoc]
        rfl

theorem exitList_ends {N : ℕ} (hN : ∀ n, N ≤ n → (body n).exits = none) (k : ℕ) :
    ∀ (exitValue : ℕ) (hs : List (ℕ × ℕ)) {calls : List (ℕ × ℕ)}, N ≤ calls.length + k →
      ∃ fuel r, exitList body fuel exitValue hs calls = some r := by
  induction k with
  | zero =>
    intro exitValue hs calls hle
    exact ⟨hs.length + 1, _, exitList_returns (fun n hn => hN n (by omega)) _ _ (by omega)⟩
  | succ k ih =>
    intro exitValue hs calls hle
    cases hs with
    | nil => exact ⟨1, _, rfl⟩
    | cons h rest =>
      have hnext : N ≤ (calls ++ [h]).length + k := by
        rw [List.length_append, List.length_singleton]
        omega
      cases hexits : (body calls.length).exits with
      | some value =>
        obtain ⟨fuel, r, hr⟩ := ih value (opsList (body calls.length).ops [] ++ h :: rest) hnext
        exact ⟨fuel + 1, r, by rw [exitList]; simp only [hexits]; exact hr⟩
      | none =>
        obtain ⟨fuel, r, hr⟩ := ih exitValue rest hnext
        exact ⟨fuel + 1, r, by rw [exitList]; simp only [hexits]; exact hr⟩

theorem exitList_never (hall : ∀ n, (body n).exits ≠ none) {fuel : ℕ} :
    ∀ {exitValue : ℕ} {hs calls : List (ℕ × ℕ)}, hs ≠ [] →
      exitList body fuel exitValue hs calls = none := by
  induction fuel with
  | zero => intro _ _ _ _; rfl
  | succ fuel ih =>
    intro exitValue hs calls hne
    cases hs with
    | nil => exact absurd rfl hne
    | cons h rest =>
      obtain ⟨value, hvalue⟩ := Option.ne_none_iff_exists'.mp (hall calls.length)
      rw [exitList]
      simp only [hvalue]
      exact ih (by simp)

/-- `z_pthread_exit` calls every handler, a newer one before an older one, whatever handlers a
handler links or leaves linked, and only then cleans up the thread's data and ends the thread,
once, with the last exit value; each handler once if none of them exits. It comes to the end if
no handler exits any more from some call on, and never if each call exits. -/
theorem exit_calls_handlers {s : State} {ns : List (ℕ × ℕ × ℕ)} (hpos : 0 < s.frame)
    (h : Chain s.records s.cleanupStack s.frame ns) (body : ℕ → Body) (exitValue : ℕ) :
    (∀ fuel t, zPthreadExit body fuel exitValue s = some t →
      ∃ new, t.calls = s.calls ++ new ∧ (ns.map (·.2)).Sublist new ∧
        t.tsdCleanups = s.tsdCleanups + 1 ∧
        t.terminated = s.terminated ++ [lastExit body s.calls.length new.length exitValue]) ∧
    ((∀ n, (body n).exits = none) → ∃ t, zPthreadExit body (ns.length + 1) exitValue s = some t ∧
      t.calls = s.calls ++ ns.map (·.2) ∧ t.terminated = s.terminated ++ [exitValue]) ∧
    (∀ N, (∀ n, N ≤ n → (body n).exits = none) →
      ∃ fuel t, zPthreadExit body fuel exitValue s = some t) ∧
    (ns ≠ [] → (∀ n, (body n).exits ≠ none) →
      ∀ fuel, zPthreadExit body fuel exitValue s = none) := by
  have hrefines := fun fuel => exit_refines body fuel exitValue hpos h
  refine ⟨fun fuel t ht => ?_, fun hnone => ?_, fun N hN => ?_, fun hne hall fuel => ?_⟩
  · have hmap := hrefines fuel
    rw [ht, Option.map_some, eq_comm, Option.map_eq_some_iff] at hmap
    obtain ⟨r, hr, heq⟩ := hmap
    obtain ⟨new, rfl, hsub⟩ := exitList_calls hr
    simp only [Prod.mk.injEq] at heq
    exact ⟨new, heq.1.symm, hsub, heq.2.1.symm, heq.2.2.symm⟩
  · have hmap := hrefines (ns.length + 1)
    rw [exitList_returns (fun n _ => hnone n) _ _ (by rw [List.length_map]; omega),
      Option.map_some, Option.map_eq_some_iff] at hmap
    obtain ⟨t, ht, heq⟩ := hmap
    simp only [Prod.mk.injEq] at heq
    exact ⟨t, ht, heq.1, heq.2.2⟩
  · obtain ⟨fuel, r, hr⟩ := exitList_ends hN N exitValue (ns.map (·.2))
      (Nat.le_add_left N s.calls.length)
    have hmap := hrefines fuel
    rw [hr, Option.map_some, Option.map_eq_some_iff] at hmap
    obtain ⟨t, ht, -⟩ := hmap
    exact ⟨fuel, t, ht⟩
  · have hmap := hrefines fuel
    rw [exitList_never hall (by simpa using hne), Option.map_none, Option.map_eq_none_iff] at hmap
    exact hmap

def twoHandlers : State :=
  cleanupPush 8 2 (cleanupPush 7 1 ⟨fun _ => ⟨0, 0, 0⟩, 0, 1, [], 0, []⟩)

def exitsOnce : ℕ → Body
  | 0 => ⟨[.push 9 3], some 5⟩
  | _ => ⟨[.push 6 4, .pop, .push 6 0], none⟩

theorem twoHandlers_chain :
    Chain twoHandlers.records twoHandlers.cleanupStack twoHandlers.frame [(2, 8, 2), (1, 7, 1)] :=
  .cons (by decide) (by decide) rfl (.cons (by decide) (by decide) rfl (.nil _))

theorem exit_calls_two :
    (∀ fuel t, zPthreadExit exitsOnce fuel 4 twoHandlers = some t →
      ∃ new, t.calls = [] ++ new ∧ [(8, 2), (7, 1)].Sublist new ∧
        t.tsdCleanups = 0 + 1 ∧ t.terminated = [] ++ [lastExit exitsOnce 0 new.length 4]) ∧
    (zPthreadExit exitsOnce 5 4 twoHandlers).map (fun t => (t.calls, t.terminated)) =
      some ([(8, 2), (9, 3), (8, 2), (7, 1)], [5]) :=
  ⟨(exit_calls_handlers (by decide) twoHandlers_chain exitsOnce 4).1, by decide⟩

end ThreadExitHandlers

import LibSystemCall.StreamGet
import LibSystemCall.GuardedSystem

/-! # The cached offset of a stream

`_offset` against the kernel's offset of the descriptor. `z_lseek` returns an int: an offset
reaches the stream as its low 32 bits. -/
namespace StreamOffset

open GuardedSystem StreamFile StreamFlush StreamPut StreamGet

inductive Seek where
  | failed (errno : ℤ)
  | moved (position : ℤ)
  deriving DecidableEq

def zLseek : Seek → ℤ
  | .failed _ => -1
  | .moved position => (BitVec.ofInt 32 position).toInt

def Seek.errno : Seek → ℤ
  | .failed errno => errno
  | .moved _ => 0

def Seek.after (position : ℤ) : Seek → ℤ
  | .failed _ => position
  | .moved position => position

/-- What the kernel does in one call of `z_swrite`; a descriptor opened with `O_APPEND` writes
at `landing`. -/
structure Answer where
  seek : Seek
  write : WriteResult
  landing : ℤ

def Seek.response (seek : Seek) (write : WriteResult) : Response := ⟨zLseek seek, seek.errno, write⟩

def Answer.response (a : Answer) : Response := a.seek.response a.write

def Answer.written (append : Bool) (a : Answer) (start : ℤ) : ℤ :=
  match a.write with
  | .failed _ => start
  | .accepted count => (if append then a.landing else start) + count

def Answer.after (append app opt : Bool) (a : Answer) (position : ℤ) : ℤ :=
  let start := if app then a.seek.after position else position
  match outcomeOf app opt a.response with
  | .refused => start
  | .wrote _ => a.written append start

def writesAfter (answers : ℕ → Answer) (append opt : Bool) (turn : ℕ) (app : Bool)
    (position : ℤ) : ℕ → ℤ
  | 0 => position
  | n + 1 =>
    let a := answers turn
    writesAfter answers append opt (turn + 1) (staysAppending app a.response)
      (a.after append app opt position) n

/-- `append` is whether the descriptor was opened with `O_APPEND`. -/
structure Stream where
  file : ZFile
  position : ℤ
  append : Bool

inductive Event where
  | sread (buf : BitVec 64) (n : BitVec 32) (result : ReadResult)
  | swrite (buf : BitVec 64) (n : BitVec 32) (answer : Answer)
  | sseek (offset : ℤ) (whence : Whence) (seek : Seek)
  | sflush (answers : ℕ → Answer) (fuel : ℕ)

def flush (answers : ℕ → Answer) (fuel : ℕ) (s : Stream) : Option (Stdio × ℤ) :=
  zSflush (fun i => (answers i).response) fuel s.file.toStdio

def SeeksBack (fp : File) : Prop := fp.has SRD ∧ fp.seekable ∧ fp.r.signExtend 64 > 0

instance (fp : File) : Decidable (SeeksBack fp) := inferInstanceAs (Decidable (_ ∧ _ ∧ _))

/-- The kernel's offset after a flush that has made `turns` calls of `z_swrite`. -/
def flushAfter (answers : ℕ → Answer) (s : Stream) (turns : ℕ) : ℤ :=
  let io := s.file.toStdio
  if io.fp.base = 0 then s.position
  else if SeeksBack io.fp then (answers io.turn).seek.after s.position
  else writesAfter answers s.append (io.fp.has SOPT) io.turn (io.fp.has SAPP) s.position turns

def Stream.set (s : Stream) (io : Stdio) (position : ℤ) : Stream :=
  { s with file := { s.file with toStdio := io }, position := position }

def next (s : Stream) : Event → Stream
  | .sread buf n result =>
    { s with
      file := (zSread (fun _ _ => ((), result)) () s.file buf n).2.1
      position := s.position + result.bytes.length }
  | .swrite buf n a =>
    let io := s.file.toStdio
    s.set (zSwrite a.response io buf n).1
      (a.after s.append (io.fp.has SAPP) (io.fp.has SOPT) s.position)
  | .sseek offset whence seek =>
    s.set (zSseek (seek.response (.accepted 0)) s.file.toStdio offset whence).1
      (seek.after s.position)
  | .sflush answers fuel =>
    match flush answers fuel s with
    | none => s
    | some (io, _) => s.set io (flushAfter answers s (io.turn - s.file.turn))

/-- Counts are ints; a flush ends. -/
def Enabled (s : Stream) : Event → Prop
  | .sread _ _ result => result.bytes.length < 2 ^ 31
  | .swrite _ _ a => a.write.bytes < 2 ^ 31
  | .sseek _ _ _ => True
  | .sflush answers fuel =>
    (∀ i, (answers i).write.bytes < 2 ^ 31) ∧ (flush answers fuel s).isSome

structure Tracked (fp : File) (position : ℤ) : Prop where
  optimised : fp.has SOFF → fp.has SOPT
  exact : fp.has SOFF → fp.offset = position

def offsetSystem : System Stream Event := ⟨fun s => Tracked s.file.fp s.position, Enabled, next⟩

/-- The stream learns where the kernel is, or takes the seek for a failure. -/
def Seek.Exact : Seek → Prop
  | .failed _ => True
  | .moved position => zLseek (.moved position) = position ∨ zLseek (.moved position) < 0

/-- What is written with `O_APPEND` goes where the seek has found the end. -/
def Answer.Exact (append : Bool) (a : Answer) : Prop :=
  a.seek.Exact ∧ (append = true → ∀ position count, a.seek = .moved position →
    0 ≤ zLseek a.seek → a.write = .accepted count → a.landing = position)

/-- No optimised stream is given a wrong offset, and no read-ahead is sought back over while
the offset is cached. -/
def offsetKept (s : Stream) : Event → Prop
  | .sread _ _ _ => True
  | .swrite _ _ a => s.file.fp.has SAPP → s.file.fp.has SOPT → a.Exact s.append
  | .sseek _ _ seek => s.file.fp.has SOPT → seek.Exact
  | .sflush answers fuel => s.file.fp.base ≠ 0 →
    if s.file.fp.has SRD then
      SeeksBack s.file.fp → s.file.fp.has SOFF →
        (answers s.file.turn).seek.after s.position = s.position
    else
      s.file.fp.has SAPP → s.file.fp.has SOPT → ∀ i io ret, flush answers fuel s = some (io, ret) →
        s.file.turn ≤ i → i < io.turn → (answers i).Exact s.append

theorem tracked_clear (fp : File) (position : ℤ) : Tracked (fp.clear SOFF) position := by
  have hclear : ¬ (fp.clear SOFF).has SOFF = true := by simp [File.has_clear_self]
  exact ⟨fun h => absurd h hclear, fun h => absurd h hclear⟩

theorem Tracked.move {fp : File} {position : ℤ} (h : Tracked fp position) {q : ℤ}
    (hq : fp.has SOFF → q = position) : Tracked fp q :=
  ⟨h.optimised, fun hoff => (h.exact hoff).trans (hq hoff).symm⟩

theorem zSseek_tracked {s : Stdio} {position : ℤ} (h : Tracked s.fp position) {seek : Seek}
    (hseek : s.fp.has SOPT → seek.Exact) (write : WriteResult) (offset : ℤ) (whence : Whence) :
    Tracked (zSseek (seek.response write) s offset whence).1.fp (seek.after position) := by
  unfold zSseek
  by_cases hneg : (seek.response write).seekRet < 0
  · simp only [if_pos hneg]
    exact tracked_clear _ _
  · simp only [if_neg hneg]
    have hmoved : ∃ p, seek = .moved p := by
      cases seek with
      | failed errno => exact absurd (show (-1 : ℤ) < 0 by decide) hneg
      | moved p => exact ⟨p, rfl⟩
    obtain ⟨p, rfl⟩ := hmoved
    by_cases hopt : s.fp.has SOPT
    · rw [if_pos hopt]
      refine ⟨fun _ => ?_, fun _ => (hseek hopt).resolve_right hneg⟩
      have hkept : (s.fp.set SOFF).has SOPT = s.fp.has SOPT := File.has_set (by decide)
      exact hkept.trans hopt
    · rw [if_neg hopt]
      exact ⟨h.optimised, fun hoff => absurd (h.optimised hoff) hopt⟩

theorem has_both {fp : File} (h : fp.flags &&& (SAPP ||| SOFF) = SAPP ||| SOFF) :
    fp.has SAPP ∧ fp.has SOFF := by
  have hpart : ∀ q, (SAPP ||| SOFF) &&& q = q → q ≠ 0 → fp.has q := by
    intro q hq hne
    have hand : fp.flags &&& q = q := by
      calc fp.flags &&& q = fp.flags &&& (SAPP ||| SOFF) &&& q := by rw [BitVec.and_assoc, hq]
        _ = q := by rw [h, hq]
    apply decide_eq_true
    rw [hand]
    exact hne
  exact ⟨hpart SAPP (by decide) (by decide), hpart SOFF (by decide) (by decide)⟩

theorem accepted_toInt {count : ℕ} (h : count < 2 ^ 31) :
    (WriteResult.accepted count).ret.toInt = count := by
  rw [WriteResult.ret, BitVec.toInt_ofNat', Int.bmod_eq_of_le (by omega) (by omega)]

theorem writeOut_tracked {s : Stdio} {start : ℤ} (h : Tracked s.fp start) {append : Bool}
    {a : Answer} (hsmall : a.write.bytes < 2 ^ 31)
    (hlanding : append = true → s.fp.has SAPP → s.fp.has SOFF → ∀ count,
      a.write = .accepted count → a.landing = start) (buf : BitVec 64) (n : BitVec 32) :
    Tracked (writeOut a.write s buf n).1.fp (a.written append start) := by
  unfold writeOut
  simp only
  split
  · next hret =>
    split
    · next hflags =>
      obtain ⟨happ, hoff⟩ := has_both hflags.1
      cases hw : a.write with
      | failed errno =>
        rw [hw] at hret
        exact absurd (show (-1 : BitVec 32).toInt ≥ 0 from hret) (by decide)
      | accepted count =>
        refine ⟨fun _ => h.optimised hoff, fun _ => ?_⟩
        have hstart : (if append then a.landing else start) = start := by
          split
          · next happend => exact hlanding happend happ hoff count hw
          · rfl
        have hcount : (WriteResult.accepted count).ret.toInt = count := by
          rw [hw] at hsmall
          exact accepted_toInt hsmall
        simp only [Answer.written, hw, hstart, hcount, h.exact hoff]
    · exact tracked_clear _ _
  · exact tracked_clear _ _

theorem zSwrite_tracked {s : Stdio} {position : ℤ} (h : Tracked s.fp position) {append : Bool}
    {a : Answer} (hsmall : a.write.bytes < 2 ^ 31)
    (ha : s.fp.has SAPP → s.fp.has SOPT → a.Exact append) (buf : BitVec 64) (n : BitVec 32) :
    Tracked (zSwrite a.response s buf n).1.fp
      (a.after append (s.fp.has SAPP) (s.fp.has SOPT) position) := by
  unfold zSwrite Answer.after
  by_cases happ : s.fp.has SAPP
  · rw [if_pos happ]
    simp only [if_pos happ]
    have hopt := (zSseek_sought a.response { s with turn := s.turn + 1 }).opt
    have hret := zSseek_ret a.response { s with turn := s.turn + 1 } 0 .fromEnd
    have hsought : Tracked (zSseek a.response { s with turn := s.turn + 1 } 0 .fromEnd).1.fp
        (a.seek.after position) :=
      zSseek_tracked (s := { s with turn := s.turn + 1 }) h (fun ho => (ha happ ho).1) a.write 0
        .fromEnd
    by_cases hfail : a.response.seekRet < 0 ∧ s.fp.has SOPT
    · have hout : outcomeOf (s.fp.has SAPP) (s.fp.has SOPT) a.response = .refused := by
        simp [outcomeOf, happ, hfail]
      rw [if_pos ⟨hret.mpr hfail.1, hopt.trans hfail.2⟩, hout]
      exact hsought
    · have hout : outcomeOf (s.fp.has SAPP) (s.fp.has SOPT) a.response = .wrote a.write := by
        simp only [outcomeOf, happ, Bool.true_and, Bool.and_eq_true, decide_eq_true_eq]
        exact if_neg fun h => hfail h.symm
      rw [if_neg fun hc => hfail ⟨hret.mp hc.1, hopt.symm.trans hc.2⟩, hout]
      refine writeOut_tracked hsought hsmall (fun happend _ hoff count hw => ?_) buf n
      have hSopt : s.fp.has SOPT := hopt.symm.trans (hsought.optimised hoff)
      have hge : 0 ≤ zLseek a.seek := Int.not_lt.mp fun hlt => hfail ⟨hlt, hSopt⟩
      cases hseek : a.seek with
      | failed errno =>
        rw [hseek] at hge
        exact absurd (show (0 : ℤ) ≤ -1 from hge) (by decide)
      | moved p => exact (ha happ hSopt).2 happend p count hseek hge hw
  · rw [if_neg happ]
    have hout : outcomeOf (s.fp.has SAPP) (s.fp.has SOPT) a.response = .wrote a.write := by
      simp only [outcomeOf, happ, Bool.false_and, Bool.false_eq_true, if_false]
      rfl
    simp only [if_neg happ, hout]
    exact writeOut_tracked (s := { s with turn := s.turn + 1 }) h hsmall
      (fun _ hs => absurd hs happ) buf n

theorem resetOnEagain_file (s : Stdio) (p n t : BitVec 64) :
    (resetOnEagain s p n t).fp.flags = s.fp.flags ∧
      (resetOnEagain s p n t).fp.offset = s.fp.offset ∧
      (resetOnEagain s p n t).turn = s.turn := by
  unfold resetOnEagain
  split
  · split
    · refine ⟨?_, ?_, rfl⟩
      · simp only
        split <;> rfl
      · simp only
        split <;> rfl
    · exact ⟨rfl, rfl, rfl⟩
  · exact ⟨rfl, rfl, rfl⟩

theorem Tracked.congr {fp fp' : File} {position : ℤ} (h : Tracked fp position)
    (hflags : ∀ q, ~~~SERR &&& q = q → fp'.has q = fp.has q) (hoffset : fp'.offset = fp.offset) :
    Tracked fp' position where
  optimised hoff := by
    rw [hflags SOFF (by decide)] at hoff
    rw [hflags SOPT (by decide)]
    exact h.optimised hoff
  exact hoff := by
    rw [hflags SOFF (by decide)] at hoff
    rw [hoffset]
    exact h.exact hoff

theorem Tracked.ended {s : Stdio} {position : ℤ} (h : Tracked s.fp position) (p n t : BitVec 64) :
    Tracked ((resetOnEagain s p n t).fp.set SERR) position := by
  obtain ⟨hflags, hoffset, -⟩ := resetOnEagain_file s p n t
  refine h.congr (fun q hq => ?_) hoffset
  rw [File.has_set (mask_disjoint hq)]
  exact has_congr (by rw [hflags])

theorem flushLoop_turn {env : ℕ → Response} {fuel : ℕ} {s io : Stdio} {p n : BitVec 64} {ret : ℤ}
    (h : flushLoop env fuel s p n = some (io, ret)) : s.turn ≤ io.turn := by
  induction fuel generalizing s p n with
  | zero => cases h
  | succ fuel ih =>
    have hturn := (zSwrite_swritten (env s.turn) s p (n.setWidth 32)).1.turn
    unfold flushLoop at h
    split at h
    · simp only at h
      split at h
      · obtain ⟨rfl, -⟩ := Prod.mk.inj (Option.some.inj h)
        have hreset := (resetOnEagain_file (zSwrite (env s.turn) s p (n.setWidth 32)).1 p n
          ((zSwrite (env s.turn) s p (n.setWidth 32)).2.signExtend 64)).2.2
        simp only [hreset, hturn]
        omega
      · have := ih h
        omega
    · obtain ⟨rfl, -⟩ := Prod.mk.inj (Option.some.inj h)
      exact Nat.le_refl _

theorem flushLoop_tracked {answers : ℕ → Answer} {append : Bool}
    (hsmall : ∀ i, (answers i).write.bytes < 2 ^ 31) {fuel : ℕ} {s io : Stdio} {p n : BitVec 64}
    {ret position : ℤ} (h : Tracked s.fp position)
    (hrun : flushLoop (fun i => (answers i).response) fuel s p n = some (io, ret))
    (ha : s.fp.has SAPP → s.fp.has SOPT → ∀ i, s.turn ≤ i → i < io.turn →
      (answers i).Exact append) :
    Tracked io.fp (writesAfter answers append (s.fp.has SOPT) s.turn (s.fp.has SAPP) position
      (io.turn - s.turn)) := by
  induction fuel generalizing s p n position with
  | zero => cases hrun
  | succ fuel ih =>
    have hwritten := (zSwrite_swritten (answers s.turn).response s p (n.setWidth 32)).1
    have hnext : ∀ {k}, s.turn < k → writesAfter answers append (s.fp.has SOPT) s.turn
        (s.fp.has SAPP) position (k - s.turn) = writesAfter answers append (s.fp.has SOPT)
        (s.turn + 1) (staysAppending (s.fp.has SAPP) (answers s.turn).response)
        ((answers s.turn).after append (s.fp.has SAPP) (s.fp.has SOPT) position)
        (k - (s.turn + 1)) := by
      intro k hk
      rw [show k - s.turn = (k - (s.turn + 1)) + 1 by omega, writesAfter]
    unfold flushLoop at hrun
    split at hrun
    · simp only at hrun
      split at hrun
      · obtain ⟨rfl, -⟩ := Prod.mk.inj (Option.some.inj hrun)
        have hreset := (resetOnEagain_file
          (zSwrite (answers s.turn).response s p (n.setWidth 32)).1 p n
          ((zSwrite (answers s.turn).response s p (n.setWidth 32)).2.signExtend 64)).2.2
        simp only [hreset, hwritten.turn] at ha ⊢
        have hfirst := zSwrite_tracked h (hsmall s.turn)
          (fun happ hopt => ha happ hopt s.turn (Nat.le_refl _) (Nat.lt_succ_self _)) p
          (n.setWidth 32)
        rw [hnext (Nat.lt_succ_self _), Nat.sub_self]
        exact hfirst.ended p n _
      · have hle := flushLoop_turn hrun
        rw [hwritten.turn] at hle
        have hfirst := zSwrite_tracked h (hsmall s.turn)
          (fun happ hopt => ha happ hopt s.turn (Nat.le_refl _) (by omega)) p (n.setWidth 32)
        have hrest := ih hfirst hrun fun happ hopt i hi hlt => by
          rw [hwritten.app] at happ
          rw [hwritten.opt] at hopt
          rw [hwritten.turn] at hi
          exact ha (Bool.and_eq_true_iff.mp happ).1 hopt i (by omega) hlt
        rw [hwritten.turn, hwritten.opt, hwritten.app] at hrest
        rw [hnext (by omega)]
        exact hrest
    · obtain ⟨rfl, -⟩ := Prod.mk.inj (Option.some.inj hrun)
      rw [Nat.sub_self]
      exact h

/-- The branch for reading leaves the cached offset alone. -/
theorem flushRead_cases (resp : Response) (s : Stdio) :
    ∃ fp e, (flushRead resp s).1 = { s with fp := fp, errno := e } ∧
      (fp = s.fp ∨ fp = { s.fp with p := s.fp.base, r := 0 }.clear SEOF) := by
  unfold flushRead
  simp only
  split_ifs
  all_goals first
    | exact ⟨_, _, rfl, .inl rfl⟩
    | exact ⟨_, _, rfl, .inr rfl⟩

theorem flushRead_tracked {s : Stdio} {position : ℤ} (h : Tracked s.fp position)
    (resp : Response) : Tracked (flushRead resp s).1.fp position := by
  obtain ⟨fp, e, hrun, hfp⟩ := flushRead_cases resp s
  rw [hrun]
  rcases hfp with rfl | rfl
  · exact h
  · constructor
    · intro hoff
      rw [File.has_clear (by decide)] at hoff
      rw [File.has_clear (by decide)]
      exact h.optimised hoff
    · intro hoff
      rw [File.has_clear (by decide)] at hoff
      exact h.exact hoff

theorem flushRead_soff (resp : Response) (s : Stdio) :
    (flushRead resp s).1.fp.has SOFF = s.fp.has SOFF := by
  obtain ⟨fp, e, hrun, hfp⟩ := flushRead_cases resp s
  rw [hrun]
  rcases hfp with rfl | rfl
  · rfl
  · exact File.has_clear (by decide)

theorem flush_tracked {answers : ℕ → Answer} {fuel : ℕ} {s : Stream} {io : Stdio} {ret : ℤ}
    (h : Tracked s.file.fp s.position) (hsmall : ∀ i, (answers i).write.bytes < 2 ^ 31)
    (hrun : flush answers fuel s = some (io, ret)) (hg : offsetKept s (.sflush answers fuel)) :
    Tracked io.fp (flushAfter answers s (io.turn - s.file.turn)) := by
  have hkept := hrun
  unfold flush zSflush at hrun
  unfold flushAfter
  by_cases hbase : s.file.fp.base = 0
  · rw [if_pos hbase] at hrun
    obtain ⟨rfl, -⟩ := Prod.mk.inj (Option.some.inj hrun)
    simp only [if_pos hbase]
    exact h
  · rw [if_neg hbase] at hrun
    have hg := hg hbase
    simp only [if_neg hbase]
    by_cases hread : s.file.fp.has SRD
    · rw [if_pos hread] at hrun hg
      have hio : (flushRead (answers s.file.turn).response s.file.toStdio).1 = io :=
        congrArg Prod.fst (Option.some.inj hrun)
      have hturn : io.turn = s.file.turn := by
        obtain ⟨fp, e, hcase, -⟩ :=
          flushRead_cases (answers s.file.turn).response s.file.toStdio
        rw [← hio, hcase]
      rw [hturn, Nat.sub_self, ← hio]
      refine Tracked.move (flushRead_tracked h _) fun hoff => ?_
      rw [flushRead_soff] at hoff
      split
      · next hback => exact hg hback hoff
      · rfl
    · rw [if_neg hread] at hrun hg
      rw [if_neg fun hback : SeeksBack _ => hread hback.1]
      by_cases hwrite : s.file.fp.has SWR
      · rw [if_pos hwrite] at hrun
        exact flushLoop_tracked hsmall (s := { s.file.toStdio with fp := { s.file.fp with
          p := s.file.fp.base, w := if s.file.fp.has (SLBF ||| SNBF) then 0 else s.file.fp.size } })
          ⟨h.optimised, h.exact⟩ hrun fun happ hopt i hi hlt => hg happ hopt i io ret hkept hi hlt
      · rw [if_neg hwrite] at hrun
        obtain ⟨rfl, -⟩ := Prod.mk.inj (Option.some.inj hrun)
        rw [Nat.sub_self]
        exact h

theorem zSread_tracked {s : ZFile} {position : ℤ} (h : Tracked s.fp position) {result : ReadResult}
    (hsmall : result.bytes.length < 2 ^ 31) (buf : BitVec 64) (n : BitVec 32) :
    Tracked (zSread (fun _ _ => ((), result)) () s buf n).2.1.fp
      (position + result.bytes.length) := by
  unfold zSread
  simp only
  cases result with
  | failed errno =>
    have hret : (ReadResult.failed errno).ret.toInt = -1 := rfl
    rw [hret, if_neg (by decide), if_pos (by decide)]
    exact tracked_clear _ _
  | delivered bytes =>
    have hret : (ReadResult.delivered bytes).ret.toInt = bytes.length := delivered_toInt hsmall
    rw [hret]
    split
    · by_cases hoff : s.fp.has SOFF
      · rw [if_pos hoff]
        split
        · exact ⟨h.optimised, fun _ => congrArg (· + (bytes.length : ℤ)) (h.exact hoff)⟩
        · exact tracked_clear _ _
      · rw [if_neg hoff]
        exact h.move fun hs => absurd hs hoff
    · rw [if_neg (by omega)]
      refine h.move fun _ => ?_
      simp only [ReadResult.bytes]
      omega

theorem tracked_inductive :
    Inductive offsetSystem offsetKept fun s => Tracked s.file.fp s.position where
  initial _ h := h
  step s e h he hg := by
    cases e with
    | sread buf n result => exact zSread_tracked h he buf n
    | swrite buf n a => exact zSwrite_tracked h he hg buf n
    | sseek offset whence seek => exact zSseek_tracked h hg (.accepted 0) offset whence
    | sflush answers fuel =>
      change Tracked (next s (.sflush answers fuel)).file.fp _
      obtain ⟨⟨io, ret⟩, hrun⟩ := Option.isSome_iff_exists.mp he.2
      have hflush := flush_tracked h he.1 hrun hg
      simp only [offsetSystem, next, hrun]
      exact hflush

/-- The cached offset is the kernel's. -/
theorem offset_exact {s : Stream} (h : ReachableUnder offsetSystem offsetKept s) :
    s.file.fp.has SOFF → s.file.fp.offset = s.position :=
  (tracked_inductive.reachable h).exact

/-! A stream in read mode with four bytes read ahead at offset 10. -/

def readAhead : Stream where
  file :=
    { fp := ⟨0x1000, 4, 0, SRD ||| SOPT, 0x1000, 16, 0, true⟩
      mem := fun _ => 0
      errno := 0
      turn := 0
      attempts := []
      lbfsize := 0
      output := [] }
  position := 10
  append := false

theorem readAhead_initial : offsetSystem.Initial readAhead :=
  have hoff : ¬ readAhead.file.fp.has SOFF := by decide
  ⟨fun h => absurd h hoff, fun h => absurd h hoff⟩

def answered : ℕ → Answer := fun _ => ⟨.moved 6, .accepted 0, 0⟩

theorem offset_exact_after_read :
    let s := runTrace offsetSystem readAhead
      [.sseek 0 .cur (.moved 10), .sread 0x1000 16 (.delivered [97, 98])]
    s.file.fp.has SOFF ∧ (s.file.fp.has SOFF → s.file.fp.offset = s.position) := by
  refine ⟨by decide, offset_exact (valid_trace_reachable readAhead_initial ?_)⟩
  exact ⟨⟨trivial, fun _ => .inl rfl⟩, ⟨show 2 < 2 ^ 31 by decide, trivial⟩, trivial⟩

def flushed : Stream :=
  runTrace offsetSystem readAhead [.sseek 0 .cur (.moved 10), .sflush answered 1]

def soughtFar : Stream :=
  runTrace offsetSystem readAhead [.sseek (2 ^ 32 + 5) .set (.moved (2 ^ 32 + 5))]

/-- After the flush the stream believes itself at 10, after the seek at 5. -/
theorem flush_leaves_offset :
    (Reachable offsetSystem flushed ∧ flushed.file.fp.has SOFF ∧
      flushed.file.fp.offset = 10 ∧ flushed.position = 6) ∧
    Reachable offsetSystem soughtFar ∧ soughtFar.file.fp.has SOFF ∧
      soughtFar.file.fp.offset = 5 ∧ soughtFar.position = 2 ^ 32 + 5 := by
  refine ⟨⟨valid_trace_reachable readAhead_initial ?_, by decide, by decide, by decide⟩,
    valid_trace_reachable readAhead_initial ⟨⟨trivial, trivial⟩, trivial⟩, by decide, by decide,
    by decide⟩
  exact ⟨⟨trivial, trivial⟩, ⟨⟨fun _ => show 0 < 2 ^ 31 by decide, by decide⟩, trivial⟩, trivial⟩

end StreamOffset

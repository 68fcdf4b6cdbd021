import LibSystemCall.StreamFile
import LibSystemCall.StringMemmove
import Mathlib.Tactic.IntervalCases

/-! # z_sflush

`n` and `t` are unsigned: a result of -1 moves the write window one byte back instead of
ending the loop. The results of the writes, each failure counted as -1, decide what the
flush does. -/
namespace StreamFlush

open ByteMemory StringMemmove StreamFile

/-- The repair of `_p` and `_w` after `EAGAIN`; `t < 0` compares unsigned values. -/
def resetOnEagain (s : Stdio) (p n t : BitVec 64) : Stdio :=
  if t < 0 ∧ s.errno = EAGAIN then
    if p > s.fp.p then
      let mem := (zMemmove s.mem s.fp.p.toNat p.toNat ((n.setWidth 32).signExtend 64).toNat).1
      let fp := { s.fp with p := s.fp.p + n }
      let fp := if fp.has (SLBF ||| SNBF) then fp else { fp with w := fp.w - n.setWidth 32 }
      { s with mem := mem, fp := fp }
    else s
  else s

/-- `for (; n > 0; n -= t, p += t)`; none when the fuel is used up. -/
def flushLoop (env : ℕ → Response) : ℕ → Stdio → BitVec 64 → BitVec 64 → Option (Stdio × ℤ)
  | 0, _, _, _ => none
  | fuel + 1, s, p, n =>
    if 0 < n then
      let wrote := zSwrite (env s.turn) s p (n.setWidth 32)
      let s := wrote.1
      let t := wrote.2.signExtend 64
      if t ≤ 0 then
        let s := resetOnEagain s p n t
        some ({ s with fp := s.fp.set SERR }, -1)
      else flushLoop env fuel s (p + t) (n - t)
    else some (s, 0)

/-- The branch of a stream in read mode: a seek back over what was read ahead. -/
def flushRead (resp : Response) (s : Stdio) : Stdio × ℤ :=
  if ¬ s.fp.seekable then (s, 0)
  else
    let n := s.fp.r.signExtend 64
    if n > 0 then
      let s := { s with errno := if resp.seekErrno = 0 then s.errno else resp.seekErrno }
      if resp.seekRet = -1 then
        if s.errno = ESPIPE then (s, 0) else (s, -1)
      else ({ s with fp := { s.fp with p := s.fp.base, r := 0 }.clear SEOF }, 0)
    else (s, 0)

def zSflush (env : ℕ → Response) (fuel : ℕ) (s : Stdio) : Option (Stdio × ℤ) :=
  let p := s.fp.base
  if p = 0 then some (s, 0)
  else if s.fp.has SRD then some (flushRead (env s.turn) s)
  else if s.fp.has SWR then
    let n := s.fp.p - p
    let w := if s.fp.has (SLBF ||| SNBF) then 0 else s.fp.size
    flushLoop env fuel { s with fp := { s.fp with p := p, w := w } } p n
  else some (s, 0)

def unaccepted (m : Memory) (base N : ℕ) (log : List Attempt) : List UInt8 :=
  ((List.range N).filter fun j => !accepted log (base + j)).map fun j => m (base + j)

def Inside (base N : ℕ) (a : Attempt) : Prop :=
  base ≤ a.addr ∧ 0 ≤ a.count ∧ (a.addr : ℤ) + a.count ≤ base + N

structure Flushed (s : Stdio) (N : ℕ) (s' : Stdio) (ret : ℤ) : Prop where
  inside : ∀ a ∈ s'.attempts, Inside s.fp.base.toNat N a
  zero : ret = 0 ↔ ∀ j < N, accepted s'.attempts (s.fp.base.toNat + j)
  error : ret ≠ 0 → ret = -1 ∧ s'.fp.has SERR
  kept : (∃ a ∈ s'.attempts, a.result = .failed EAGAIN) →
    load s'.mem s.fp.base.toNat (s'.fp.p.toNat - s.fp.base.toNat) =
      unaccepted s.mem s.fp.base.toNat N s'.attempts

def FlushContract (env : ℕ → Response) (s : Stdio) (N : ℕ) : Prop :=
  ∃ fuel s' ret, zSflush env fuel s = some (s', ret) ∧ Flushed s N s' ret

structure WriteStream (s : Stdio) (N : ℕ) : Prop where
  writes : s.fp.has SWR
  notReads : s.fp.has SRD = false
  buffer : s.fp.base ≠ 0
  buffered : s.fp.p.toNat = s.fp.base.toNat + N
  room : (N : ℤ) ≤ s.fp.size.toInt
  turn : s.turn = 0
  attempts : s.attempts = []

section Results
variable (env : ℕ → Response) (fp : File)

def appending : ℕ → Bool
  | 0 => fp.has SAPP
  | i + 1 => staysAppending (appending i) (env i)

def outcome (i : ℕ) : Outcome := outcomeOf (appending env fp i) (fp.has SOPT) (env i)

def value (i : ℕ) : ℤ := (outcome env fp i).value

def total : ℕ → ℤ
  | 0 => 0
  | i + 1 => total i + value env fp i

def Reached (N i : ℕ) : Prop := (∀ j < i, value env fp j ≠ 0) ∧ ∀ j ≤ i, total env fp j ≠ N

def ValidResults (N : ℕ) : Prop :=
  ∀ i, Reached env fp N i → value env fp i ≤ N - total env fp i

/-- Before the `i`-th result nothing ends the loop, and no failure comes at total 0. -/
def Smooth (N i : ℕ) : Prop :=
  ∀ j < i, total env fp j ≠ N ∧ value env fp j ≠ 0 ∧ (value env fp j < 0 → 0 < total env fp j)

/-- The results reach the total `N`, or a 0 before that and then none of them is a failure
with `EAGAIN`. -/
def Settles (N : ℕ) : Prop :=
  ∃ m, Smooth env fp N m ∧
    (total env fp m = N ∨
      value env fp m = 0 ∧ ∀ j < m, outcome env fp j ≠ .wrote (.failed EAGAIN))

end Results

theorem smooth_succ {env : ℕ → Response} {fp : File} {N i : ℕ} (h : Smooth env fp N i)
    (hN : total env fp i ≠ N) (hz : value env fp i ≠ 0)
    (hneg : value env fp i < 0 → 0 < total env fp i) : Smooth env fp N (i + 1) := by
  intro j hj
  rcases Nat.lt_succ_iff_lt_or_eq.mp hj with hj | rfl
  · exact h j hj
  · exact ⟨hN, hz, hneg⟩

theorem Smooth.mono {env : ℕ → Response} {fp : File} {N i j : ℕ} (h : Smooth env fp N i)
    (hj : j ≤ i) : Smooth env fp N j := fun k hk => h k (by omega)

theorem Smooth.reached {env : ℕ → Response} {fp : File} {N i : ℕ} (h : Smooth env fp N i)
    (hN : total env fp i ≠ N) : Reached env fp N i := by
  refine ⟨fun j hj => (h j hj).2.1, fun j hj => ?_⟩
  rcases Nat.lt_or_eq_of_le hj with hj | rfl
  · exact (h j hj).1
  · exact hN

theorem Smooth.total_bounds {env : ℕ → Response} {fp : File} {N i : ℕ}
    (hval : ValidResults env fp N) (h : Smooth env fp N i) :
    0 ≤ total env fp i ∧ total env fp i ≤ N := by
  induction i with
  | zero => exact ⟨Int.le_refl 0, Int.natCast_nonneg N⟩
  | succ i ih =>
    obtain ⟨hN, hz, hneg⟩ := h i i.lt_succ_self
    have hprev := h.mono i.le_succ
    obtain ⟨hlo, hhi⟩ := ih hprev
    have hle := hval i (hprev.reached hN)
    have hge := (outcome env fp i).neg_one_le_value
    simp only [total]
    unfold value at *
    omega

theorem toNat_advance {x : BitVec 64} {v : ℤ} (hlo : 0 ≤ x.toNat + v)
    (hhi : x.toNat + v < 2 ^ 64) : ((x + BitVec.ofInt 64 v).toNat : ℤ) = x.toNat + v := by
  rw [BitVec.toNat_add, BitVec.toNat_ofInt]
  omega

theorem toNat_retreat {x : BitVec 64} {v : ℤ} (hlo : 0 ≤ x.toNat - v)
    (hhi : x.toNat - v < 2 ^ 64) : ((x - BitVec.ofInt 64 v).toNat : ℤ) = x.toNat - v := by
  rw [BitVec.toNat_sub, BitVec.toNat_ofInt]
  omega

theorem ofInt_le_zero {v : ℤ} (hlo : -1 ≤ v) (hhi : v < 2 ^ 31) :
    BitVec.ofInt 64 v ≤ 0 ↔ v = 0 := by
  rw [BitVec.le_def, BitVec.toNat_ofInt]
  simp only [BitVec.ofNat_eq_ofNat, BitVec.toNat_ofNat]
  omega

variable {env : ℕ → Response} {s₀ : Stdio} {N : ℕ}

/-- The log before the `i`-th write: the first `total i` bytes are accepted, the last is not. -/
structure Logged (env : ℕ → Response) (s₀ : Stdio) (N i : ℕ) (log : List Attempt) : Prop where
  inside : ∀ a ∈ log, Inside s₀.fp.base.toNat N a
  behind : ∀ j : ℕ, j < total env s₀.fp i → accepted log (s₀.fp.base.toNat + j)
  last : total env s₀.fp i < N → accepted log (s₀.fp.base.toNat + (N - 1)) = false
  failures : ∀ e, (∃ a ∈ log, a.result = .failed e) ↔
    ∃ j < i, outcome env s₀.fp j = .wrote (.failed e)

theorem accepted_append (log : List Attempt) (a : Attempt) (x : ℕ) :
    accepted (log ++ [a]) x = (accepted log x || a.covers x) := by
  simp [accepted]

theorem exists_failed_append {log : List Attempt} {a : Attempt} {e : ℤ} :
    (∃ b ∈ log ++ [a], b.result = .failed e) ↔
      (∃ b ∈ log, b.result = .failed e) ∨ a.result = .failed e := by
  constructor
  · rintro ⟨b, hb, he⟩
    rcases List.mem_append.mp hb with hb | hb
    · exact .inl ⟨b, hb, he⟩
    · exact .inr (List.mem_singleton.mp hb ▸ he)
  · rintro (⟨b, hb, he⟩ | he)
    · exact ⟨b, List.mem_append_left _ hb, he⟩
    · exact ⟨a, List.mem_append_right _ List.mem_cons_self, he⟩

theorem exists_lt_succ {P : ℕ → Prop} {i : ℕ} : (∃ j < i + 1, P j) ↔ (∃ j < i, P j) ∨ P i := by
  constructor
  · rintro ⟨j, hj, hP⟩
    rcases Nat.lt_succ_iff_lt_or_eq.mp hj with hj | rfl
    · exact .inl ⟨j, hj, hP⟩
    · exact .inr hP
  · rintro (⟨j, hj, hP⟩ | hP)
    · exact ⟨j, by omega, hP⟩
    · exact ⟨i, by omega, hP⟩

theorem logged_zero (env : ℕ → Response) (s₀ : Stdio) (N : ℕ) : Logged env s₀ N 0 [] where
  inside := by simp
  behind j hj := absurd hj (by simp [total])
  last _ := rfl
  failures e := by simp

theorem Logged.refused {i : ℕ} {log : List Attempt} (h : Logged env s₀ N i log)
    (hN : total env s₀.fp i < N) (hout : outcome env s₀.fp i = .refused) :
    Logged env s₀ N (i + 1) log := by
  have hsucc : total env s₀.fp (i + 1) = total env s₀.fp i - 1 := by
    simp only [total, value, hout, Outcome.value]
    omega
  refine ⟨h.inside, fun j hj => h.behind j (by omega), fun _ => h.last hN, fun e => ?_⟩
  rw [exists_lt_succ, hout, h.failures e]
  simp

theorem Logged.wrote {i : ℕ} {log : List Attempt} {a : Attempt} {r : WriteResult}
    (h : Logged env s₀ N i log) (hlo : 0 ≤ total env s₀.fp i) (hN : total env s₀.fp i < N)
    (haddr : (a.addr : ℤ) = s₀.fp.base.toNat + total env s₀.fp i)
    (hcount : a.count = N - total env s₀.fp i) (hres : a.result = r)
    (hout : outcome env s₀.fp i = .wrote r) : Logged env s₀ N (i + 1) (log ++ [a]) := by
  have hvalue : value env s₀.fp i = r.bytes ∨ value env s₀.fp i = -1 ∧ r.bytes = 0 := by
    unfold value
    rw [hout]
    cases r with
    | failed e => exact .inr ⟨rfl, rfl⟩
    | accepted count => exact .inl rfl
  have hsucc : total env s₀.fp (i + 1) = total env s₀.fp i + value env s₀.fp i := rfl
  constructor
  · intro b hb
    rcases List.mem_append.mp hb with hb | hb
    · exact h.inside b hb
    · rw [List.mem_singleton.mp hb]
      exact ⟨by omega, by omega, by omega⟩
  · intro j hj
    rw [accepted_append]
    by_cases hjt : (j : ℤ) < total env s₀.fp i
    · rw [h.behind j hjt, Bool.true_or]
    · have hcover : a.covers (s₀.fp.base.toNat + j) = true := by
        simp only [Attempt.covers, hres, Bool.and_eq_true, decide_eq_true_eq]
        omega
      rw [hcover, Bool.or_true]
  · intro hlt
    rw [accepted_append, h.last hN, Bool.false_or]
    simp only [Attempt.covers, hres, Bool.and_eq_false_iff, decide_eq_false_iff_not]
    omega
  · intro e
    rw [exists_failed_append, exists_lt_succ, h.failures e, hres, hout]
    simp

/-- The loop before its `i`-th write: `total i` bytes are behind `p` and `N - total i` left. -/
structure Mid (env : ℕ → Response) (s₀ : Stdio) (N i : ℕ) (s : Stdio) (p n : BitVec 64) :
    Prop where
  turn : s.turn = i
  base : s.fp.base = s₀.fp.base
  start : s.fp.p = s₀.fp.base
  mem : s.mem = s₀.mem
  app : s.fp.has SAPP = appending env s₀.fp i
  opt : s.fp.has SOPT = s₀.fp.has SOPT
  position : (p.toNat : ℤ) = s₀.fp.base.toNat + total env s₀.fp i
  left : (n.toNat : ℤ) = N - total env s₀.fp i
  log : Logged env s₀ N i s.attempts

theorem Mid.outcome_eq {i : ℕ} {s : Stdio} {p n : BitVec 64} (h : Mid env s₀ N i s p n) :
    outcomeOf (s.fp.has SAPP) (s.fp.has SOPT) (env s.turn) = outcome env s₀.fp i := by
  rw [h.app, h.opt, h.turn]
  rfl

theorem Mid.logs {i : ℕ} {s : Stdio} {p n : BitVec 64} (h : Mid env s₀ N i s p n)
    (hsmall : N < 2 ^ 31) (hlo : 0 ≤ total env s₀.fp i) (hN : total env s₀.fp i < N) :
    Logged env s₀ N (i + 1) (zSwrite (env s.turn) s p (n.setWidth 32)).1.attempts := by
  obtain ⟨hw, -⟩ := zSwrite_swritten (env s.turn) s p (n.setWidth 32)
  have hleft := h.left
  have hcount : (n.setWidth 32).toInt = N - total env s₀.fp i := by
    have hlt : n.toNat < 2 ^ 31 := by omega
    rw [BitVec.toInt_eq_toNat_of_lt] <;> rw [BitVec.toNat_setWidth] <;> omega
  rw [hw.attempts, h.outcome_eq]
  cases hout : outcome env s₀.fp i with
  | refused =>
    rw [List.append_nil]
    exact h.log.refused hN hout
  | wrote r => exact h.log.wrote hlo hN h.position hcount rfl hout

theorem Mid.step {i : ℕ} {s : Stdio} {p n : BitVec 64} (h : Mid env s₀ N i s p n)
    (hfits : s₀.fp.base.toNat + N < 2 ^ 64) (hsmall : N < 2 ^ 31)
    (hval : ValidResults env s₀.fp N) (hsm : Smooth env s₀.fp N (i + 1)) :
    Mid env s₀ N (i + 1) (zSwrite (env s.turn) s p (n.setWidth 32)).1
      (p + BitVec.ofInt 64 (value env s₀.fp i)) (n - BitVec.ofInt 64 (value env s₀.fp i)) := by
  obtain ⟨hw, -⟩ := zSwrite_swritten (env s.turn) s p (n.setWidth 32)
  obtain ⟨hN, -, -⟩ := hsm i i.lt_succ_self
  obtain ⟨hlo, hhi⟩ := (hsm.mono i.le_succ).total_bounds hval
  obtain ⟨hlo', hhi'⟩ := hsm.total_bounds hval
  have hpos := h.position
  have hleft := h.left
  have hsucc : total env s₀.fp (i + 1) = total env s₀.fp i + value env s₀.fp i := rfl
  refine ⟨by rw [hw.turn, h.turn], hw.base.trans h.base, ?_, hw.mem.trans h.mem, ?_,
    hw.opt.trans h.opt, ?_, ?_, h.logs hsmall hlo (by omega)⟩
  · exact (hw.p (h.start.trans h.base.symm)).trans h.base
  · rw [hw.app, h.app, h.turn]
    rfl
  · rw [toNat_advance (by omega) (by omega)]
    omega
  · rw [toNat_retreat (by omega) (by omega)]
    omega

theorem Mid.result {i : ℕ} {s : Stdio} {p n : BitVec 64} (h : Mid env s₀ N i s p n)
    (hlt : value env s₀.fp i < 2 ^ 31) :
    (zSwrite (env s.turn) s p (n.setWidth 32)).2.signExtend 64 =
      BitVec.ofInt 64 (value env s₀.fp i) := by
  rw [(zSwrite_swritten (env s.turn) s p (n.setWidth 32)).2, h.outcome_eq]
  exact Outcome.ret_signExtend hlt

theorem Mid.left_pos {i : ℕ} {s : Stdio} {p n : BitVec 64} (h : Mid env s₀ N i s p n) :
    0 < n ↔ total env s₀.fp i ≠ N := by
  have := h.left
  rw [BitVec.lt_def]
  simp only [BitVec.ofNat_eq_ofNat, BitVec.toNat_ofNat]
  omega

/-- A result that is not 0 sends the loop round once more. -/
theorem Mid.loop {i fuel : ℕ} {s : Stdio} {p n : BitVec 64} (h : Mid env s₀ N i s p n)
    (hN : total env s₀.fp i ≠ N) (hlt : value env s₀.fp i < 2 ^ 31)
    (hz : value env s₀.fp i ≠ 0) :
    flushLoop env (fuel + 1) s p n =
      flushLoop env fuel (zSwrite (env s.turn) s p (n.setWidth 32)).1
        (p + BitVec.ofInt 64 (value env s₀.fp i)) (n - BitVec.ofInt 64 (value env s₀.fp i)) := by
  have hge : -1 ≤ value env s₀.fp i := Outcome.neg_one_le_value _
  have hnot : ¬ BitVec.ofInt 64 (value env s₀.fp i) ≤ 0 := by
    rw [ofInt_le_zero hge hlt]
    exact hz
  rw [flushLoop, if_pos (h.left_pos.mpr hN)]
  simp only [h.result hlt]
  rw [if_neg hnot]

theorem Mid.stop {i fuel : ℕ} {s : Stdio} {p n : BitVec 64} (h : Mid env s₀ N i s p n)
    (hN : total env s₀.fp i ≠ N) (hz : value env s₀.fp i = 0) :
    flushLoop env (fuel + 1) s p n =
      let s := (zSwrite (env s.turn) s p (n.setWidth 32)).1
      some ({ s with fp := s.fp.set SERR }, -1) := by
  have hres := h.result (by rw [hz]; decide)
  rw [hz] at hres
  rw [flushLoop, if_pos (h.left_pos.mpr hN)]
  simp only [hres]
  rfl

theorem Mid.finish {i fuel : ℕ} {s : Stdio} {p n : BitVec 64} (h : Mid env s₀ N i s p n)
    (hN : total env s₀.fp i = N) : flushLoop env (fuel + 1) s p n = some (s, 0) := by
  rw [flushLoop, if_neg fun hpos => h.left_pos.mp hpos hN]

theorem Mid.flushed_all {i : ℕ} {s : Stdio} {p n : BitVec 64} (h : Mid env s₀ N i s p n)
    (hN : total env s₀.fp i = N) : Flushed s₀ N s 0 := by
  have hall : ∀ j < N, accepted s.attempts (s₀.fp.base.toNat + j) := by
    intro j hj
    exact h.log.behind j (by omega)
  refine ⟨h.log.inside, ⟨fun _ => hall, fun _ => rfl⟩, fun h0 => absurd rfl h0, fun _ => ?_⟩
  have hnone :
      (List.range N).filter (fun j => !accepted s.attempts (s₀.fp.base.toNat + j)) = [] := by
    rw [List.filter_eq_nil_iff]
    intro j hj
    simp [hall j (List.mem_range.mp hj)]
  rw [h.start, Nat.sub_self, unaccepted, hnone]
  rfl

/-- A byte is left when the loop ends with -1, and the buffer is empty all the same. -/
theorem Mid.flushed_error {i : ℕ} {s : Stdio} {p n : BitVec 64} (h : Mid env s₀ N i s p n)
    (hsmall : N < 2 ^ 31) (hlo : 0 ≤ total env s₀.fp i) (hN : total env s₀.fp i < N)
    (hz : value env s₀.fp i = 0) {s' : Stdio}
    (hs' : s' = (zSwrite (env s.turn) s p (n.setWidth 32)).1) :
    Flushed s₀ N { s' with fp := s'.fp.set SERR } (-1) ↔
      ∀ j < i, outcome env s₀.fp j ≠ .wrote (.failed EAGAIN) := by
  subst hs'
  obtain ⟨hw, -⟩ := zSwrite_swritten (env s.turn) s p (n.setWidth 32)
  have hlog := h.logs hsmall hlo hN
  have hlast := hlog.last (by simp only [total]; omega)
  have hstart := (hw.p (h.start.trans h.base.symm)).trans h.base
  have hout : ¬ outcome env s₀.fp i = .wrote (.failed EAGAIN) := by
    intro hout
    simp [value, hout, Outcome.value] at hz
  have hfail := hlog.failures EAGAIN
  rw [exists_lt_succ] at hfail
  constructor
  · intro hfl j hj hj'
    have hkept := hfl.kept (hfail.mpr (.inl ⟨j, hj, hj'⟩))
    have hmem : N - 1 ∈ (List.range N).filter fun j =>
        !accepted (zSwrite (env s.turn) s p (n.setWidth 32)).1.attempts
          (s₀.fp.base.toNat + j) := by
      rw [List.mem_filter, List.mem_range, hlast]
      exact ⟨by omega, rfl⟩
    have hnil : unaccepted s₀.mem s₀.fp.base.toNat N
        (zSwrite (env s.turn) s p (n.setWidth 32)).1.attempts = [] := by
      rw [← hkept]
      simp only [File.set, hstart, Nat.sub_self, load_zero]
    rw [unaccepted, List.map_eq_nil_iff] at hnil
    rw [hnil] at hmem
    exact absurd hmem List.not_mem_nil
  · intro hno
    refine ⟨hlog.inside, ⟨by simp, fun hall => ?_⟩, fun _ => ⟨rfl, ?_⟩, fun hex => ?_⟩
    · have := hall (N - 1) (by omega)
      simp [hlast] at this
    · exact File.has_set_self (by decide)
    · rcases hfail.mp hex with ⟨j, hj, hj'⟩ | hi
      · exact absurd hj' (hno j hj)
      · exact absurd hi hout

/-! A failure at total 0 takes the window out of the buffer, and it does not come back. -/

structure Outside (s₀ : Stdio) (N : ℕ) (s : Stdio) (p n : BitVec 64) : Prop where
  beyond : N < n.toNat
  window : p + n = s₀.fp.base + BitVec.ofNat 64 N
  last : accepted s.attempts (s₀.fp.base.toNat + (N - 1)) = false

theorem Outside.not_inside {s : Stdio} {p n : BitVec 64} (h : Outside s₀ N s p n)
    (hfits : s₀.fp.base.toNat + N < 2 ^ 64) (count : ℤ) (r : WriteResult) :
    ¬ Inside s₀.fp.base.toNat N ⟨p.toNat, count, r⟩ := by
  rintro ⟨hlo, hcount, hhi⟩
  have hsum := congrArg BitVec.toNat h.window
  have hn := n.isLt
  have hbeyond := h.beyond
  rw [BitVec.toNat_add, BitVec.toNat_add, BitVec.toNat_ofNat] at hsum
  simp only at hlo hcount hhi
  omega

theorem resetOnEagain_attempts (s : Stdio) (p n t : BitVec 64) :
    (resetOnEagain s p n t).attempts = s.attempts := by
  unfold resetOnEagain
  split
  · split <;> rfl
  · rfl

theorem flushLoop_zero {fuel : ℕ} {s s' : Stdio} {p n : BitVec 64} {ret : ℤ} (hn : ¬ 0 < n)
    (h : flushLoop env fuel s p n = some (s', ret)) : s' = s ∧ ret = 0 := by
  cases fuel with
  | zero => cases h
  | succ fuel =>
    rw [flushLoop, if_neg hn, Option.some.injEq, Prod.mk.injEq] at h
    exact ⟨h.1.symm, h.2.symm⟩

theorem flushLoop_attempts {fuel : ℕ} {s s' : Stdio} {p n : BitVec 64} {ret : ℤ}
    (h : flushLoop env fuel s p n = some (s', ret)) :
    s.attempts <+: s'.attempts ∧
      (0 < n → (zSwrite (env s.turn) s p (n.setWidth 32)).1.attempts <+: s'.attempts) := by
  induction fuel generalizing s p n with
  | zero => cases h
  | succ fuel ih =>
    have hw : s.attempts <+: (zSwrite (env s.turn) s p (n.setWidth 32)).1.attempts := by
      rw [(zSwrite_swritten (env s.turn) s p (n.setWidth 32)).1.attempts]
      exact List.prefix_append _ _
    by_cases hn : 0 < n
    · rw [flushLoop, if_pos hn] at h
      simp only at h
      split at h
      · rw [Option.some.injEq, Prod.mk.injEq] at h
        have hlog : s'.attempts = (zSwrite (env s.turn) s p (n.setWidth 32)).1.attempts := by
          rw [← h.1]
          simp only [resetOnEagain_attempts]
        rw [hlog]
        exact ⟨hw, fun _ => List.prefix_rfl⟩
      · exact ⟨hw.trans (ih h).1, fun _ => (ih h).1⟩
    · rw [(flushLoop_zero hn h).1]
      exact ⟨List.prefix_rfl, fun h => absurd h hn⟩

theorem Outside.not_flushed {fuel : ℕ} {s s' : Stdio} {p n : BitVec 64} {ret : ℤ}
    (h : Outside s₀ N s p n) (hpos : 0 < N) (hfits : s₀.fp.base.toNat + N < 2 ^ 64)
    (hrun : flushLoop env fuel s p n = some (s', ret)) : ¬ Flushed s₀ N s' ret := by
  intro hfl
  induction fuel generalizing s p n with
  | zero => cases hrun
  | succ fuel ih =>
    have hbeyond := h.beyond
    have hn : 0 < n := by
      rw [BitVec.lt_def]
      simp only [BitVec.ofNat_eq_ofNat, BitVec.toNat_ofNat]
      omega
    obtain ⟨hw, hret⟩ := zSwrite_swritten (env s.turn) s p (n.setWidth 32)
    have hlog := hw.attempts
    cases hout : outcomeOf (s.fp.has SAPP) (s.fp.has SOPT) (env s.turn) with
    | wrote r =>
      rw [hout] at hlog
      have hmem := ((flushLoop_attempts hrun).2 hn).subset (hlog ▸ List.mem_append_right _
        List.mem_cons_self)
      exact h.not_inside hfits _ _ (hfl.inside _ hmem)
    | refused =>
      rw [hout] at hlog hret
      rw [flushLoop, if_pos hn] at hrun
      have ht : (zSwrite (env s.turn) s p (n.setWidth 32)).2.signExtend 64 = -1 := by
        rw [hret]
        rfl
      simp only [ht] at hrun
      rw [if_neg (by decide)] at hrun
      have hlast : accepted (zSwrite (env s.turn) s p (n.setWidth 32)).1.attempts
          (s₀.fp.base.toNat + (N - 1)) = false := by
        rw [hlog, List.append_nil]
        exact h.last
      by_cases hwrap : 0 < n - -1
      · refine ih ⟨?_, ?_, hlast⟩ hrun
        · bv_omega
        · rw [← h.window]
          bv_omega
      · obtain ⟨rfl, rfl⟩ := flushLoop_zero hwrap hrun
        have := hfl.zero.mp rfl (N - 1) (by omega)
        rw [hlast] at this
        cases this

/-- The step out: a failure before any byte is accepted. -/
theorem Mid.outside {i : ℕ} {s : Stdio} {p n : BitVec 64} (h : Mid env s₀ N i s p n)
    (hsmall : N < 2 ^ 31) (hpos : 0 < N) (hN : total env s₀.fp i = 0)
    (hneg : value env s₀.fp i < 0) :
    Outside s₀ N (zSwrite (env s.turn) s p (n.setWidth 32)).1
      (p + BitVec.ofInt 64 (value env s₀.fp i)) (n - BitVec.ofInt 64 (value env s₀.fp i)) := by
  have hge : -1 ≤ value env s₀.fp i := Outcome.neg_one_le_value _
  have hvalue : value env s₀.fp i = -1 := by omega
  have hleft := h.left
  have hposition := h.position
  refine ⟨?_, ?_, (h.logs hsmall (by omega) (by omega)).last (by simp only [total]; omega)⟩
  · have := toNat_retreat (x := n) (v := value env s₀.fp i) (by omega) (by omega)
    omega
  · apply BitVec.eq_of_toNat_eq
    have hp : p.toNat = s₀.fp.base.toNat := by omega
    have hn : n.toNat = N := by omega
    rw [hvalue, BitVec.toNat_add, BitVec.toNat_add, BitVec.toNat_add, BitVec.toNat_sub,
      BitVec.toNat_ofInt, BitVec.toNat_ofNat, hp, hn]
    omega

theorem Mid.settles {i fuel : ℕ} {s s' : Stdio} {p n : BitVec 64} {ret : ℤ}
    (h : Mid env s₀ N i s p n) (hfits : s₀.fp.base.toNat + N < 2 ^ 64) (hsmall : N < 2 ^ 31)
    (hval : ValidResults env s₀.fp N) (hsm : Smooth env s₀.fp N i)
    (hrun : flushLoop env fuel s p n = some (s', ret)) (hfl : Flushed s₀ N s' ret) :
    Settles env s₀.fp N := by
  induction fuel generalizing i s p n with
  | zero => cases hrun
  | succ fuel ih =>
    obtain ⟨hlo, hhi⟩ := hsm.total_bounds hval
    by_cases hN : total env s₀.fp i = N
    · exact ⟨i, hsm, .inl hN⟩
    have hlt : value env s₀.fp i < 2 ^ 31 := by
      have := hval i (hsm.reached hN)
      omega
    by_cases hz : value env s₀.fp i = 0
    · rw [h.stop hN hz, Option.some.injEq, Prod.mk.injEq] at hrun
      obtain ⟨rfl, rfl⟩ := hrun
      have hno := (h.flushed_error hsmall hlo (by omega) hz rfl).mp hfl
      exact ⟨i, hsm, .inr ⟨hz, hno⟩⟩
    · rw [h.loop hN hlt hz] at hrun
      by_cases hout : value env s₀.fp i < 0 ∧ total env s₀.fp i = 0
      · have := h.outside hsmall (by omega) hout.2 hout.1
        exact absurd hfl (this.not_flushed (by omega) hfits hrun)
      · have hnext := smooth_succ hsm hN hz (by omega)
        exact ih (h.step hfits hsmall hval hnext) hnext hrun

/-- A smooth run follows the loop up to its `i`-th write. -/
theorem Mid.reaches {s : Stdio} {p n : BitVec 64} (h : Mid env s₀ N 0 s p n)
    (hfits : s₀.fp.base.toNat + N < 2 ^ 64) (hsmall : N < 2 ^ 31)
    (hval : ValidResults env s₀.fp N) {i : ℕ} (hsm : Smooth env s₀.fp N i) :
    ∃ t q k, Mid env s₀ N i t q k ∧
      ∀ fuel, flushLoop env (fuel + i) s p n = flushLoop env fuel t q k := by
  induction i with
  | zero => exact ⟨s, p, n, h, fun _ => rfl⟩
  | succ i ih =>
    have hprev := hsm.mono i.le_succ
    obtain ⟨t, q, k, ht, hrun⟩ := ih hprev
    obtain ⟨hN, hz, -⟩ := hsm i i.lt_succ_self
    obtain ⟨hlo, hhi⟩ := hprev.total_bounds hval
    have hlt : value env s₀.fp i < 2 ^ 31 := by
      have := hval i (hprev.reached hN)
      omega
    refine ⟨_, _, _, ht.step hfits hsmall hval hsm, fun fuel => ?_⟩
    rw [← Nat.add_assoc, Nat.add_right_comm, hrun, ht.loop hN hlt hz]

theorem Mid.contract {s : Stdio} {p n : BitVec 64} (h : Mid env s₀ N 0 s p n)
    (hfits : s₀.fp.base.toNat + N < 2 ^ 64) (hsmall : N < 2 ^ 31)
    (hval : ValidResults env s₀.fp N) (hset : Settles env s₀.fp N) :
    ∃ fuel s' ret, flushLoop env fuel s p n = some (s', ret) ∧ Flushed s₀ N s' ret := by
  obtain ⟨m, hsm, hend⟩ := hset
  obtain ⟨t, q, k, ht, hrun⟩ := h.reaches hfits hsmall hval hsm
  obtain ⟨hlo, hhi⟩ := hsm.total_bounds hval
  by_cases hN : total env s₀.fp m = N
  · exact ⟨1 + m, t, 0, by rw [hrun, ht.finish hN], ht.flushed_all hN⟩
  · obtain ⟨hz, hno⟩ := hend.resolve_left hN
    exact ⟨1 + m, _, -1, by rw [hrun, ht.stop hN hz],
      (ht.flushed_error hsmall hlo (by omega) hz rfl).mpr hno⟩

/-- The stream when the loop starts: `_p` is reset before anything is written. -/
def begun (s : Stdio) : Stdio :=
  { s with fp := { s.fp with
      p := s.fp.base
      w := if s.fp.has (SLBF ||| SNBF) then 0 else s.fp.size } }

theorem WriteStream.zSflush_eq (h : WriteStream s₀ N) (fuel : ℕ) :
    zSflush env fuel s₀ =
      flushLoop env fuel (begun s₀) s₀.fp.base (s₀.fp.p - s₀.fp.base) := by
  unfold zSflush
  simp only [if_neg h.buffer, h.notReads, h.writes, Bool.false_eq_true, if_false, if_true]
  rfl

theorem WriteStream.small (h : WriteStream s₀ N) : N < 2 ^ 31 := by
  have := h.room
  have := s₀.fp.size.toInt_lt
  omega

theorem WriteStream.fits (h : WriteStream s₀ N) : s₀.fp.base.toNat + N < 2 ^ 64 := by
  rw [← h.buffered]
  exact s₀.fp.p.isLt

theorem WriteStream.mid (h : WriteStream s₀ N) :
    Mid env s₀ N 0 (begun s₀) s₀.fp.base (s₀.fp.p - s₀.fp.base) := by
  have hp := h.buffered
  refine ⟨h.turn, rfl, rfl, rfl, rfl, rfl, by simp [total], ?_, ?_⟩
  · simp only [total]
    bv_omega
  · have hlog : (begun s₀).attempts = [] := h.attempts
    rw [hlog]
    exact logged_zero env s₀ N

theorem contract_settles (h : WriteStream s₀ N) (hval : ValidResults env s₀.fp N)
    (hc : FlushContract env s₀ N) : Settles env s₀.fp N := by
  obtain ⟨fuel, s', ret, hrun, hfl⟩ := hc
  rw [h.zSflush_eq] at hrun
  exact h.mid.settles h.fits h.small hval (fun j hj => absurd hj (by omega)) hrun hfl

theorem flush_contract_iff (h : WriteStream s₀ N) (hval : ValidResults env s₀.fp N) :
    FlushContract env s₀ N ↔ Settles env s₀.fp N := by
  constructor
  · exact contract_settles h hval
  · intro hset
    obtain ⟨fuel, s', ret, hrun, hfl⟩ := h.mid.contract h.fits h.small hval hset
    exact ⟨fuel, s', ret, by rw [h.zSflush_eq, hrun], hfl⟩

def abcBuffered : Stdio where
  fp := ⟨4099, 0, 1021, SWR, 4096, 1024, 0, true⟩
  mem := fun x => UInt8.ofNat (x - 4096 + 97)
  errno := 0
  turn := 0
  attempts := []

theorem abc_stream : WriteStream abcBuffered 3 := by
  constructor <;> decide

def responses (rs : List WriteResult) (i : ℕ) : Response := ⟨0, 0, rs.getD i (.accepted 0)⟩

theorem two_writes_flush : FlushContract (responses [.accepted 2, .accepted 1]) abcBuffered 3 := by
  refine (flush_contract_iff abc_stream ?_).mpr ⟨2, ?_, .inl (by decide)⟩
  · intro i hi
    by_cases h2 : i < 2
    · interval_cases i <;> decide
    · exact absurd (by decide) (hi.2 2 (by omega))
  · intro j hj
    interval_cases j <;> decide

/-- `EAGAIN` at once: the next write is offered four bytes from the one before the buffer. -/
theorem first_eagain_breaks_flush :
    WriteStream abcBuffered 3 ∧
      ValidResults (responses [.failed EAGAIN, .accepted 4]) abcBuffered.fp 3 ∧
      ¬ FlushContract (responses [.failed EAGAIN, .accepted 4]) abcBuffered 3 := by
  have hval : ValidResults (responses [.failed EAGAIN, .accepted 4]) abcBuffered.fp 3 := by
    intro i hi
    by_cases h2 : i < 2
    · interval_cases i <;> decide
    · exact absurd (by decide) (hi.2 2 (by omega))
  refine ⟨abc_stream, hval, fun hc => ?_⟩
  obtain ⟨m, hsm, hend⟩ := contract_settles abc_stream hval hc
  rcases Nat.eq_zero_or_pos m with rfl | hm
  · revert hend
    decide
  · exact absurd ((hsm 0 hm).2.2 (by decide)) (by decide)

end StreamFlush

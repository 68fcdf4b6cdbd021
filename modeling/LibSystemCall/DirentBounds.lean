import LibSystemCall.DirentStream
import Mathlib.Logic.Function.Iterate

/-! # Where z_readdir reads in its buffer

A run of `z_readdir` calls is a run of turns of its loop. The kernel may return any bytes;
a record is accepted by the checks of the code, which compare with `__dd_len`. -/
namespace DirentBounds

open ByteMemory DirentStream

/-- How far a turn gets: it returns early, or comes to the bogus pointer check. -/
inductive Arrival where
  | returns (s : Stream)
  | looksAt (s : Stream)

def arrive (env : Env) (s : Stream) : Arrival :=
  let used := s.dir.loc ≥ s.dir.size
  if used ∧ s.dir.has (DTF_READALL ||| DTF_ATEND) then .returns s
  else
    let s := if used then rewound s else s
    if s.dir.loc = 0 ∧ ¬ s.dir.has (DTF_READALL ||| DTF_ATEND ||| DTF_SKIPREAD) then
      let s := readBatch env s
      if s.dir.size ≤ 0 then .returns s else .looksAt { s with dir := s.dir.skipped }
    else .looksAt { s with dir := s.dir.skipped }

theorem readdirTurn_eq (env : Env) (s : Stream) :
    readdirTurn env s = match arrive env s with
      | .returns s => .done s none
      | .looksAt s => takeEntry s := by
  simp only [readdirTurn, arrive, rewound]
  split_ifs <;> rfl

def stateAfter : Turn → Stream
  | .again s => s
  | .done s _ => s

def turns (env : Env) (n : ℕ) (s : Stream) : Stream :=
  (fun s => stateAfter (readdirTurn env s))^[n] s

theorem turns_succ (env : Env) (n : ℕ) (s : Stream) :
    turns env (n + 1) s = stateAfter (readdirTurn env (turns env n s)) :=
  Function.iterate_succ_apply' _ n s

theorem turns_first (env : Env) (n : ℕ) (s : Stream) :
    turns env (n + 1) s = turns env n (stateAfter (readdirTurn env s)) :=
  Function.iterate_succ_apply _ n s

theorem turns_add (env : Env) (n k : ℕ) (s : Stream) :
    turns env (n + k) s = turns env n (turns env k s) := Function.iterate_add_apply _ n k s

structure Batch where
  mem : Memory
  addr : ℕ
  len : ℕ
  size : ℤ

def batchOf (s : Stream) : Batch := ⟨s.mem, s.dir.buf.addr, s.dir.len, s.dir.size⟩

namespace Batch

def reclen (b : Batch) (loc : ℕ) : ℕ := (loadWord 16 b.mem (b.addr + loc + 16)).toNat

def Accepts (b : Batch) (loc : ℕ) : Prop :=
  (b.addr + loc) % 4 = 0 ∧ b.reclen loc ≠ 0 ∧ (b.reclen loc : ℤ) ≤ b.len + 1 - loc

instance (b : Batch) (loc : ℕ) : Decidable (b.Accepts loc) := inferInstanceAs (Decidable (_ ∧ _))

inductive Chain (b : Batch) : ℕ → Prop
  | start : Chain b 0
  | step {loc : ℕ} (h : Chain b loc) (hlt : loc < b.size) (ha : b.Accepts loc) :
      Chain b (loc + b.reclen loc)

/-- No record of the chain that begins in the bytes of the batch ends behind them. -/
def Whole (b : Batch) : Prop :=
  ∀ loc, Chain b loc → loc < b.size → b.Accepts loc → (loc + b.reclen loc : ℕ) ≤ b.size

end Batch

structure Takes (env : Env) (s t : Stream) : Prop where
  arrives : arrive env s = .looksAt t
  accepts : (batchOf t).Accepts t.dir.loc

/-- Every record taken lies in the bytes of its batch, and the cursor does not leave them. -/
structure RecordsInside (env : Env) (s : Stream) : Prop where
  record : ∀ n t, Takes env (turns env n s) t →
    (t.dir.loc + (batchOf t).reclen t.dir.loc : ℕ) ≤ t.dir.size
  cursor : ∀ n, 0 < (turns env n s).dir.size →
    (turns env n s).dir.loc ≤ (turns env n s).dir.size

def WholeBatches (env : Env) (s : Stream) : Prop :=
  ∀ n t, arrive env (turns env n s) = .looksAt t → t.dir.loc = 0 → (batchOf t).Whole

def advanced (t : Stream) : Stream :=
  { t with dir := { t.dir with loc := t.dir.loc + (batchOf t).reclen t.dir.loc } }

theorem takeEntry_accepted {t : Stream} (h : (batchOf t).Accepts t.dir.loc) :
    takeEntry t = .again (advanced t) ∨
      takeEntry t = .done (advanced t) (some (t.dir.buf.addr + t.dir.loc)) := by
  obtain ⟨haligned, hpos, hroom⟩ := h
  change (t.dir.buf.addr + t.dir.loc) % 4 = 0 at haligned
  unfold takeEntry
  simp only
  rw [if_neg (not_not_intro haligned), if_neg]
  · split
    · exact .inl rfl
    · split
      · exact .inl rfl
      · exact .inr rfl
  · rintro (hzero | hlong)
    · exact hpos hzero
    · exact absurd hlong (Int.not_lt.mpr hroom)

theorem takeEntry_refused {t : Stream} (h : ¬ (batchOf t).Accepts t.dir.loc) :
    takeEntry t = .done t none := by
  unfold takeEntry
  simp only
  by_cases haligned : (t.dir.buf.addr + t.dir.loc) % 4 = 0
  · rw [if_neg (not_not_intro haligned), if_pos]
    by_contra hno
    rw [not_or] at hno
    exact h ⟨haligned, hno.1, Int.not_lt.mp hno.2⟩
  · rw [if_pos haligned]

theorem stateAfter_accepted {t : Stream} (h : (batchOf t).Accepts t.dir.loc) :
    stateAfter (takeEntry t) = advanced t := by
  rcases takeEntry_accepted h with h | h
  · rw [h]
    rfl
  · rw [h]
    rfl

theorem readBatch_loc (env : Env) (s : Stream) : (readBatch env s).dir.loc = s.dir.loc := by
  have hgrow : (grow env s).dir.loc = s.dir.loc := by
    unfold grow
    split
    · split <;> rfl
    · rfl
  rw [← hgrow]
  unfold readBatch zGetdirentries
  simp only
  split <;> rfl

theorem arrive_returns {env : Env} {s t : Stream} (h : arrive env s = .returns t) :
    t = s ∨ t.dir.size ≤ 0 := by
  unfold arrive at h
  simp only at h
  split_ifs at h
  all_goals simp only [Arrival.returns.injEq] at h
  · exact .inl h.symm
  · subst h
    exact .inr ‹_›
  · subst h
    exact .inr ‹_›

/-- With the flags of a turn that goes on, a rewound cursor means another read. -/
theorem rewound_reads {s : Stream} (h : ¬ s.dir.has (DTF_READALL ||| DTF_ATEND)) :
    (rewound s).dir.loc = 0 ∧
      ¬ (rewound s).dir.has (DTF_READALL ||| DTF_ATEND ||| DTF_SKIPREAD) := by
  refine ⟨rfl, ?_⟩
  unfold Dir.has at *
  rw [ne_eq, not_not] at *
  change s.dir.flags &&& ~~~DTF_SKIPREAD &&& _ = 0
  have hskip : ~~~DTF_SKIPREAD &&& DTF_SKIPREAD = 0 := by decide
  rw [BitVec.and_or_distrib_left, BitVec.and_assoc s.dir.flags _ DTF_SKIPREAD, hskip,
    BitVec.and_assoc, BitVec.and_comm (~~~DTF_SKIPREAD), ← BitVec.and_assoc, h]
  simp

theorem looksAt_read {env : Env} {s t : Stream} (hloc : s.dir.loc = 0)
    (h : (if (readBatch env s).dir.size ≤ 0 then Arrival.returns (readBatch env s)
      else .looksAt { readBatch env s with dir := (readBatch env s).dir.skipped }) =
        .looksAt t) : t.dir.loc = 0 ∧ 0 < t.dir.size := by
  split at h
  · cases h
  · rename_i hsize
    cases h
    exact ⟨(readBatch_loc env s).trans hloc, Int.not_le.mp hsize⟩

theorem arrive_looksAt {env : Env} {s t : Stream} (h : arrive env s = .looksAt t) :
    t.dir.loc < t.dir.size ∧
      (t.dir.loc = 0 ∨ batchOf t = batchOf s ∧ t.dir.loc = s.dir.loc) := by
  unfold arrive at h
  by_cases hused : (s.dir.loc : ℤ) ≥ s.dir.size
  · simp only [hused, true_and, if_true] at h
    by_cases hend : s.dir.has (DTF_READALL ||| DTF_ATEND)
    · rw [if_pos hend] at h
      cases h
    · rw [if_neg hend, if_pos (rewound_reads hend)] at h
      obtain ⟨hloc, hsize⟩ := looksAt_read (s := rewound s) rfl h
      rw [hloc]
      exact ⟨hsize, .inl rfl⟩
  · simp only [hused, false_and, if_false] at h
    split at h
    · rename_i hread
      obtain ⟨hloc, hsize⟩ := looksAt_read hread.1 h
      rw [hloc]
      exact ⟨hsize, .inl rfl⟩
    · cases h
      exact ⟨Int.not_le.mp hused, .inr ⟨rfl, rfl⟩⟩

theorem arrive_inside {env : Env} {s : Stream} (hpos : s.dir.loc ≠ 0)
    (hlt : s.dir.loc < s.dir.size) :
    arrive env s = .looksAt { s with dir := s.dir.skipped } := by
  unfold arrive
  have hused : ¬ (s.dir.loc : ℤ) ≥ s.dir.size := Int.not_le.mpr hlt
  simp only [hused, false_and, if_false, hpos]

theorem turn_looksAt {env : Env} {s t : Stream} (h : arrive env s = .looksAt t) :
    stateAfter (readdirTurn env s) = stateAfter (takeEntry t) := by
  rw [readdirTurn_eq, h]

theorem turn_returns {env : Env} {s t : Stream} (h : arrive env s = .returns t) :
    stateAfter (readdirTurn env s) = t := by
  rw [readdirTurn_eq, h]
  rfl

/-- Where the cursor may be: at a record of the chain, in a batch that is whole. -/
def Inside (s : Stream) : Prop :=
  0 < s.dir.size → (batchOf s).Whole ∧ (batchOf s).Chain s.dir.loc ∧ s.dir.loc ≤ s.dir.size

theorem Inside.arrives {env : Env} {s t : Stream} (hs : Inside s)
    (hwhole : t.dir.loc = 0 → (batchOf t).Whole) (h : arrive env s = .looksAt t) : Inside t := by
  intro hsize
  obtain ⟨hlt, hloc | ⟨hbatch, hloc⟩⟩ := arrive_looksAt h
  · rw [hloc]
    exact ⟨hwhole hloc, .start, Int.le_of_lt hsize⟩
  · have hsize' : (batchOf t).size = s.dir.size := congrArg Batch.size hbatch
    obtain ⟨hw, hchain, -⟩ := hs (hsize' ▸ hsize)
    rw [hbatch, hloc]
    exact ⟨hw, hchain, by rw [← hloc]; exact Int.le_of_lt hlt⟩

theorem Inside.takes {t : Stream} (h : Inside t) (hlt : t.dir.loc < t.dir.size) :
    Inside (stateAfter (takeEntry t)) := by
  by_cases ha : (batchOf t).Accepts t.dir.loc
  · rw [stateAfter_accepted ha]
    intro hsize
    obtain ⟨hw, hchain, -⟩ := h hsize
    exact ⟨hw, hchain.step hlt ha, hw _ hchain hlt ha⟩
  · rw [takeEntry_refused ha]
    exact h

theorem inside_turns {env : Env} {s : Stream} (hs : s.dir.size ≤ 0) (h : WholeBatches env s)
    (n : ℕ) : Inside (turns env n s) := by
  induction n with
  | zero =>
    intro hsize
    exact absurd hsize (Int.not_lt.mpr hs)
  | succ n ih =>
    rw [turns_succ]
    cases harrive : arrive env (turns env n s) with
    | returns t =>
      rw [turn_returns harrive]
      rcases arrive_returns harrive with rfl | hsize
      · exact ih
      · intro hpos
        exact absurd hpos (Int.not_lt.mpr hsize)
    | looksAt t =>
      rw [turn_looksAt harrive]
      exact (ih.arrives (h n t harrive) harrive).takes (arrive_looksAt harrive).1

theorem chain_reached {env : Env} {s t : Stream} {n loc : ℕ}
    (harrive : arrive env (turns env n s) = .looksAt t) (hstart : t.dir.loc = 0)
    (hchain : (batchOf t).Chain loc) (hlt : loc < (batchOf t).size) :
    ∃ k u, arrive env (turns env k s) = .looksAt u ∧ batchOf u = batchOf t ∧
      u.dir.loc = loc := by
  induction hchain with
  | start => exact ⟨n, t, harrive, rfl, hstart⟩
  | @step loc hchain hbefore ha ih =>
    obtain ⟨k, u, hu, hbatch, hloc⟩ := ih hbefore
    have hau : (batchOf u).Accepts u.dir.loc := by
      rw [hbatch, hloc]
      exact ha
    have hnext : turns env (k + 1) s =
        { u with dir := { u.dir with loc := loc + (batchOf t).reclen loc } } := by
      rw [turns_succ, turn_looksAt hu, stateAfter_accepted hau, advanced, hbatch, hloc]
    refine ⟨k + 1, _, arrive_inside ?_ ?_, ?_, ?_⟩
    · rw [hnext]
      have := ha.2.1
      simp only
      omega
    · rw [hnext]
      have hsize : u.dir.size = (batchOf t).size := congrArg Batch.size hbatch
      simp only
      rwa [hsize]
    · rw [hnext, ← hbatch]
      rfl
    · rw [hnext]
      rfl

theorem records_inside_iff_whole {env : Env} {s : Stream} (hs : s.dir.size ≤ 0) :
    RecordsInside env s ↔ WholeBatches env s := by
  constructor
  · intro h n t harrive hstart loc hchain hlt ha
    obtain ⟨k, u, hu, hbatch, hloc⟩ := chain_reached harrive hstart hchain hlt
    have hsize : u.dir.size = (batchOf t).size := congrArg Batch.size hbatch
    have hrecord := h.record k u ⟨hu, by rw [hbatch, hloc]; exact ha⟩
    rwa [hbatch, hloc, hsize] at hrecord
  · intro h
    constructor
    · intro n t htakes
      have hlt := (arrive_looksAt htakes.arrives).1
      have hinside := (inside_turns hs h n).arrives (h n t htakes.arrives) htakes.arrives
      obtain ⟨hw, hchain, -⟩ := hinside (Int.lt_of_le_of_lt (Int.natCast_nonneg _) hlt)
      exact hw _ hchain hlt htakes.accepts
    · intro n hsize
      exact (inside_turns hs h n hsize).2.2

theorem zReaddir_turns {env : Env} {fuel : ℕ} {s u : Stream} {r : Option ℕ}
    (h : zReaddir env fuel s = some (u, r)) :
    ∃ n, u = turns env (n + 1) s ∧ readdirTurn env (turns env n s) = .done u r := by
  induction fuel generalizing s with
  | zero => cases h
  | succ fuel ih =>
    rw [zReaddir] at h
    cases hturn : readdirTurn env s with
    | again t =>
      rw [hturn] at h
      obtain ⟨n, hn, hlast⟩ := ih h
      refine ⟨n + 1, ?_, ?_⟩
      · rw [turns_first, hturn]
        exact hn
      · rw [turns_first, hturn]
        exact hlast
    | done t dp =>
      rw [hturn] at h
      cases h
      refine ⟨0, ?_, hturn⟩
      rw [turns_first, hturn]
      rfl

theorem call_turns {env : Env} {fuel n : ℕ} {s u : Stream} {r : Option ℕ}
    (h : call env fuel n s = some (u, r)) :
    ∃ k, u = turns env (k + 1) s ∧ readdirTurn env (turns env k s) = .done u r := by
  induction n generalizing s with
  | zero => exact zReaddir_turns h
  | succ n ih =>
    rw [call] at h
    cases hfirst : zReaddir env fuel s with
    | none =>
      rw [hfirst] at h
      cases h
    | some p =>
      rw [hfirst] at h
      obtain ⟨j, hj, -⟩ := zReaddir_turns (r := p.2) hfirst
      obtain ⟨k, hk, hlast⟩ := ih h
      rw [hj, ← turns_add] at hk hlast
      refine ⟨k + (j + 1), ?_, hlast⟩
      rw [hk, Nat.add_right_comm]

theorem returned_inside {env : Env} {s : Stream} (hs : RecordsInside env s) {fuel n dp : ℕ}
    {u : Stream} (h : call env fuel n s = some (u, some dp)) :
    u.dir.buf.addr ≤ dp ∧
      (dp + (loadWord 16 u.mem (dp + 16)).toNat : ℕ) ≤ u.dir.buf.addr + u.dir.size := by
  obtain ⟨k, -, hlast⟩ := call_turns h
  rw [readdirTurn_eq] at hlast
  cases harrive : arrive env (turns env k s) with
  | returns t =>
    rw [harrive] at hlast
    cases hlast
  | looksAt t =>
    rw [harrive] at hlast
    change takeEntry t = .done u (some dp) at hlast
    by_cases ha : (batchOf t).Accepts t.dir.loc
    · obtain hagain | hdone := takeEntry_accepted ha
      · rw [hagain] at hlast
        cases hlast
      · rw [hdone] at hlast
        cases hlast
        have hrecord := hs.record k t ⟨harrive, ha⟩
        have hreclen : (loadWord 16 t.mem (t.dir.buf.addr + t.dir.loc + 16)).toNat =
            (batchOf t).reclen t.dir.loc := rfl
        simp only [advanced, hreclen]
        constructor
        · omega
        · push_cast at hrecord ⊢
          omega
    · rw [takeEntry_refused ha] at hlast
      cases hlast

theorem opened_size {rest : Option Block → Option Stream} {o : Opening} {mem : Memory}
    {flags : BitVec 32} {s : Stream} (h : zOpendir2 rest o mem flags = some s) :
    s.dir.size = 0 := by
  unfold zOpendir2 zOpendirCommon at h
  simp only [zFilldir_none, Option.map_none] at h
  split_ifs at h
  all_goals
    obtain ⟨buf, -, rfl⟩ := Option.map_eq_some_iff.mp h
    rfl

theorem records_inside_iff {rest : Option Block → Option Stream} {o : Opening} {mem : Memory}
    {flags : BitVec 32} {s : Stream} (h : zOpendir2 rest o mem flags = some s) (env : Env) :
    RecordsInside env s ↔ WholeBatches env s :=
  records_inside_iff_whole (Int.le_of_eq (opened_size h))

theorem plain_aligned : 0x10000 % 4096 = 0 := rfl

def plainStream : Stream :=
  ⟨⟨0, 0, ⟨0x10000, plain_aligned⟩, READDIR_INITIAL_SIZE, openFlags⟩, fun _ => 0, 0⟩

theorem records_inside_iff_plain :
    zOpendir2 (fun _ => none) plainDirectory (fun _ => 0) openFlags = some plainStream ∧
      (RecordsInside twoReads plainStream ↔ WholeBatches twoReads plainStream) := by
  have hopen : zOpendir2 (fun _ => none) plainDirectory (fun _ => 0) openFlags =
      some plainStream := by rfl
  exact ⟨hopen, records_inside_iff hopen twoReads⟩

/-- A batch of 24 bytes: one record, with the `d_reclen` 2048. -/
def overlongRead : Env where
  reply _ := .read (leBytes 8 5 ++ leBytes 8 0 ++ leBytes 2 2048 ++ leBytes 2 1 ++
    [8, 97, 0, 0]) false
  block _ := some ⟨0x20000, rfl⟩

/-- The first turn moves the cursor 2024 bytes behind the batch. -/
theorem overlong_record_taken :
    zOpendir2 (fun _ => none) plainDirectory (fun _ => 0) openFlags = some plainStream ∧
      ¬ RecordsInside overlongRead plainStream := by
  refine ⟨rfl, fun h => ?_⟩
  have hsize : (turns overlongRead 1 plainStream).dir.size = 24 := by decide +kernel
  have hloc : (turns overlongRead 1 plainStream).dir.loc = 2048 := by decide +kernel
  have hcursor := h.cursor 1 (by rw [hsize]; decide)
  rw [hsize, hloc] at hcursor
  exact absurd hcursor (by decide)

end DirentBounds

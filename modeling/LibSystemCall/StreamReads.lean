import LibSystemCall.StreamGet

/-! # What z_getc makes of the results of _read

A stream in read mode with a buffer, and any sequence of counts, errors and zeros. -/
namespace StreamReads

open ByteMemory StreamFile StreamFlush StreamPut StreamGet

/-- The results in turn; the state of `_read` counts its calls. -/
def inTurn (results : ℕ → ReadResult) : Reader ℕ := fun i _ => (i + 1, results i)

/-- What a call of `z_getc` returns, the flags after it and the calls of `_read` so far. -/
structure Got where
  ret : ℤ
  serr : Bool
  seof : Bool
  reads : ℕ
  deriving DecidableEq

/-- The next `n` calls of `z_getc`, after `i` calls of `_read`. -/
def getcs (env : Stdio → ℕ → Response) (results : ℕ → ReadResult) :
    ℕ → ℕ → ZFile → Option (List Got)
  | 0, _, _ => some []
  | n + 1, i, s =>
    (zGetc env (s.fp.size.toNat + 1) (inTurn results) i s).bind fun (i, s, c) =>
      (getcs env results n i s).map (⟨c, s.fp.has SERR, s.fp.has SEOF, i⟩ :: ·)

def isFailed : ReadResult → Bool
  | .failed _ => true
  | .delivered _ => false

/-- What one result of `_read` is returned as: -1 for an error, the bytes otherwise. -/
def returned : ReadResult → List ℤ
  | .failed _ => [-1]
  | .delivered bytes => bytes.map fun b => (b.toNat : ℤ)

def erred (results : ℕ → ReadResult) (serr : Bool) (k : ℕ) : Bool :=
  serr || (List.range k).any fun i => isFailed (results i)

def transcript (results : ℕ → ReadResult) (serr : Bool) (k : ℕ) : List Got :=
  (List.range k).flatMap fun i =>
    (returned (results i)).map fun ret => ⟨ret, erred results serr (i + 1), false, i + 1⟩

/-- The first zero is final, and so is the end of a file that was reached before. -/
structure GetcContract (env : Stdio → ℕ → Response) (results : ℕ → ReadResult) (s : ZFile) :
    Prop where
  before : s.fp.has SEOF = false → ∀ k, (∀ i < k, results i ≠ .delivered []) →
    getcs env results (transcript results (s.fp.has SERR) k).length 0 s =
      some (transcript results (s.fp.has SERR) k)
  after : s.fp.has SEOF = false → ∀ k, (∀ i < k, results i ≠ .delivered []) →
    results k = .delivered [] → ∀ n,
      getcs env results ((transcript results (s.fp.has SERR) k).length + n) 0 s =
        some (transcript results (s.fp.has SERR) k ++
          List.replicate n ⟨-1, erred results (s.fp.has SERR) k, true, k + 1⟩)
  ended : s.fp.has SEOF = true → ∀ n,
    getcs env results n 0 s = some (List.replicate n ⟨-1, s.fp.has SERR, true, 0⟩)

structure ReadStream (s : ZFile) : Prop where
  reads : s.fp.has SRD = true
  nonempty : 1 ≤ s.fp.size.toInt
  fits : s.base + s.fp.size.toNat < 2 ^ 64

def Fitting (results : ℕ → ReadResult) (s : ZFile) : Prop :=
  ∀ i, (results i).bytes.length ≤ s.fp.size.toNat

theorem sflush_reading {s : ZFile} (hreads : s.fp.has SRD = true) (hr : s.fp.r = 0)
    (env : Stdio → ℕ → Response) (fuel : ℕ) : s.sflush env fuel = some (s, 0) := by
  have hrun : zSflush (env s.toStdio) fuel s.toStdio = some (s.toStdio, 0) := by
    unfold zSflush
    by_cases hbase : s.fp.base = 0
    · exact if_pos hbase
    · refine (if_neg hbase).trans ((if_pos hreads).trans (congrArg some ?_))
      unfold flushRead
      by_cases hseek : s.fp.seekable = true
      · rw [if_neg (not_not_intro hseek)]
        refine if_neg ?_
        rw [hr]
        decide
      · exact if_pos hseek
  have hnone : s.output ++ taken s.mem (s.attempts.drop s.attempts.length) = s.output := by
    rw [List.drop_length, show taken s.mem [] = [] from rfl, List.append_nil]
  rw [ZFile.sflush, hrun, Option.map_some]
  simp only [hnone]

/-- In read mode the flush of a line-buffered stream does nothing. -/
theorem zSrefill0_reading (env : Stdio → ℕ → Response) (fuel : ℕ) {s : ZFile}
    (hreads : s.fp.has SRD = true) :
    zSrefill0 env fuel s = some (s.setR 0, if s.fp.has SEOF then -1 else 1) := by
  have hlines : flushLines env fuel (s.setR 0) = some (s.setR 0, 1) := by
    unfold flushLines
    split
    · rw [sflush_reading (s := s.setR 0) hreads rfl]
      rfl
    · rfl
  by_cases heof : s.fp.has SEOF = true
  · rw [if_pos heof]
    exact if_pos heof
  · rw [if_neg heof]
    exact (if_neg heof).trans ((if_pos hreads).trans hlines)

theorem refilled_serr (s : ZFile) {result : ReadResult} (hsmall : result.bytes.length < 2 ^ 31) :
    (refilled s result.ret).1.fp.has SERR = (s.fp.has SERR || isFailed result) := by
  have hclear : ((s.setR result.ret).clearFlag SMOD).fp.has SERR = s.fp.has SERR :=
    File.has_clear (by decide)
  cases result with
  | failed errno =>
    rw [isFailed, Bool.or_true]
    exact File.has_set_self (by decide)
  | delivered bytes =>
    rw [isFailed, Bool.or_false]
    cases bytes with
    | nil => exact (File.has_set (by decide)).trans hclear
    | cons b bytes =>
      have hpos : ¬ (ReadResult.delivered (b :: bytes)).ret.toInt ≤ 0 := by
        have hint : (ReadResult.delivered (b :: bytes)).ret.toInt = (b :: bytes).length :=
          delivered_toInt hsmall
        rw [hint, List.length_cons]
        omega
      have hrun : refilled s (ReadResult.delivered (b :: bytes)).ret =
          ((s.setR (ReadResult.delivered (b :: bytes)).ret).clearFlag SMOD, 0) := if_neg hpos
      rw [hrun]
      exact hclear

theorem zSrget_reads (env : Stdio → ℕ → Response) (fuel : ℕ) (results : ℕ → ReadResult) (i : ℕ)
    {s : ZFile} (hreads : s.fp.has SRD = true) (heof : s.fp.has SEOF = false)
    (hsmall : (results i).bytes.length < 2 ^ 31) :
    ∃ t, Refilled (results i) (s.setR 0) t ∧
      t.fp.has SERR = (s.fp.has SERR || isFailed (results i)) ∧
      zSrget env fuel (inTurn results) i s = some (i + 1,
        if (results i).bytes = [] then (t, -1) else takeByte (t.setR (t.fp.r - 1))) := by
  obtain ⟨t, hrun, ht⟩ := zSrefill1_refilled (inTurn results) i (s.setR 0) hsmall
  have hfirst : zSrefill0 env fuel s = some (s.setR 0, 1) := by
    rw [zSrefill0_reading env fuel hreads, heof]
    rfl
  refine ⟨t, ht, ?_, ?_⟩
  · have hserr := refilled_serr (zSread (inTurn results) i ((s.setR 0).setP s.fp.base)
      s.fp.base s.fp.size).2.1 hsmall
    obtain ⟨o, f, e, hread, hf⟩ := zSread_eq (inTurn results) i ((s.setR 0).setP s.fp.base)
      s.fp.base s.fp.size
    have hkept : (zSread (inTurn results) i ((s.setR 0).setP s.fp.base)
        s.fp.base s.fp.size).2.1.fp.has SERR = s.fp.has SERR := by
      rw [hread]
      exact has_congr (hf SERR (by decide))
    have hret : (zSread (inTurn results) i ((s.setR 0).setP s.fp.base)
        s.fp.base s.fp.size).2.2 = (results i).ret := by
      rw [hread]
      rfl
    have hlast : (zSrefill1 (inTurn results) i (s.setR 0)).2.1 = (refilled
        (zSread (inTurn results) i ((s.setR 0).setP s.fp.base) s.fp.base s.fp.size).2.1
        (results i).ret).1 := by
      rw [← hret]
      rfl
    rw [hkept, ← hlast, hrun] at hserr
    exact hserr
  · rw [zSrget, zSrefill, hfirst, Option.map_some, Option.map_some]
    simp only [hrun]
    by_cases hnil : (results i).bytes = []
    · simp [hnil, inTurn]
    · simp [hnil, inTurn]

variable (env : Stdio → ℕ → Response) {results : ℕ → ReadResult} {size : BitVec 32}

/-- Between two calls: `pending` are the bytes that were read and not returned. -/
structure Holds (size : BitVec 32) (s : ZFile) (pending : List UInt8) : Prop
    extends ReadStream s where
  bufSize : s.fp.size = size
  r : s.fp.r = BitVec.ofNat 32 pending.length
  held : load s.mem s.fp.p.toNat pending.length = pending
  window : pending ≠ [] → s.base ≤ s.fp.p.toNat ∧
    s.fp.p.toNat + pending.length ≤ s.base + s.fp.size.toNat

theorem ReadStream.size_small {s : ZFile} (h : ReadStream s) : s.fp.size.toNat < 2 ^ 31 :=
  (StreamPut.size_small h.nonempty).1

theorem Holds.take {s : ZFile} {b : UInt8} {bs : List UInt8} (h : Holds size s (b :: bs)) :
    Holds size (takeByte (s.setR (s.fp.r - 1))).1 bs ∧
      (takeByte (s.setR (s.fp.r - 1))).2 = b.toNat := by
  have hheld := h.held
  rw [List.length_cons, load_cons, List.cons.injEq] at hheld
  obtain ⟨hb, hbs⟩ := hheld
  obtain ⟨hlower, hupper⟩ := h.window (List.cons_ne_nil b bs)
  have hfits := h.fits
  rw [List.length_cons] at hupper
  have hp : (s.fp.p + 1).toNat = s.fp.p.toNat + 1 := by bv_omega
  refine ⟨⟨⟨h.reads, h.nonempty, h.fits⟩, h.bufSize, ?_, ?_, fun _ => ?_⟩, ?_⟩
  · change s.fp.r - 1 = _
    rw [h.r, List.length_cons]
    bv_omega
  · change load s.mem (s.fp.p + 1).toNat bs.length = bs
    rw [hp]
    exact hbs
  · change s.base ≤ (s.fp.p + 1).toNat ∧
      (s.fp.p + 1).toNat + bs.length ≤ s.base + s.fp.size.toNat
    omega
  · change ((s.mem s.fp.p.toNat).toNat : ℤ) = b.toNat
    rw [hb]

theorem getc_pending {s : ZFile} {b : UInt8} {bs : List UInt8} (h : Holds size s (b :: bs))
    (i : ℕ) :
    ∃ t, zGetc env (s.fp.size.toNat + 1) (inTurn results) i s = some (i, t, (b.toNat : ℤ)) ∧
      Holds size t bs ∧ t.fp.has SERR = s.fp.has SERR ∧ t.fp.has SEOF = s.fp.has SEOF := by
  obtain ⟨ht, hret⟩ := h.take
  obtain ⟨hlower, hupper⟩ := h.window (List.cons_ne_nil b bs)
  have hsmall := h.size_small
  have hr : s.fp.r.toInt = (b :: bs).length := by
    rw [h.r, BitVec.toInt_ofNat', Int.bmod_eq_of_le (by omega) (by omega)]
  rw [List.length_cons] at hr
  have hnot : ¬ (s.fp.r - 1).toInt < 0 := by
    rw [toInt_pred (by omega)]
    omega
  refine ⟨(takeByte (s.setR (s.fp.r - 1))).1, ?_, ht, rfl, rfl⟩
  rw [← hret]
  exact if_neg hnot

theorem getc_ended {s : ZFile} (h : Holds size s []) (heof : s.fp.has SEOF = true) (i : ℕ) :
    ∃ t, zGetc env (s.fp.size.toNat + 1) (inTurn results) i s = some (i, t, -1) ∧ Holds size t [] ∧
      t.fp.has SERR = s.fp.has SERR ∧ t.fp.has SEOF = true := by
  have hneg : (s.fp.r - 1).toInt < 0 := by
    rw [h.r]
    decide
  refine ⟨(s.setR (s.fp.r - 1)).setR 0, ?_,
    ⟨⟨h.reads, h.nonempty, h.fits⟩, h.bufSize, rfl, rfl, nofun⟩, rfl, heof⟩
  refine (if_pos hneg).trans (zSrget_failed ?_ (inTurn results) i)
  rw [zSrefill0_reading env _ (s := s.setR (s.fp.r - 1)) h.reads]
  exact congrArg some (congrArg _ (if_pos heof))

theorem Holds.refilled {s t : ZFile} {r : BitVec 32} {result : ReadResult} (h : Holds size s [])
    (ht : Refilled result (s.setR r) t) (hfit : result.bytes.length ≤ s.fp.size.toNat) :
    Holds size t result.bytes := by
  obtain ⟨o, f, hfile, hf⟩ := ht.file
  have hstream : ReadStream t := by
    refine ⟨(ht.has (by decide)).trans h.reads, ?_, ?_⟩
    · rw [hfile]
      exact h.nonempty
    · rw [ZFile.base, hfile]
      exact h.fits
  refine ⟨hstream, ?_, by rw [hfile], ?_, fun _ => ?_⟩
  · rw [hfile]
    exact h.bufSize
  · rw [ht.mem, hfile]
    exact load_store_same _ _ _
  · rw [ZFile.base, hfile]
    exact ⟨Nat.le_refl _, Nat.add_le_add_left hfit _⟩

def kept (result : ReadResult) : List UInt8 := result.bytes.tail

theorem getc_reads {s : ZFile} (h : Holds size s []) (heof : s.fp.has SEOF = false) (i : ℕ)
    (hfit : (results i).bytes.length ≤ size.toNat) :
    ∃ t c, zGetc env (s.fp.size.toNat + 1) (inTurn results) i s = some (i + 1, t, c) ∧
      Holds size t (kept (results i)) ∧
      t.fp.has SERR = (s.fp.has SERR || isFailed (results i)) ∧
      t.fp.has SEOF = decide (results i = .delivered []) ∧
      if results i = .delivered [] then c = -1
      else returned (results i) = c :: (kept (results i)).map fun b => (b.toNat : ℤ) := by
  have hsmall := h.size_small
  rw [← h.bufSize] at hfit
  have hneg : (s.fp.r - 1).toInt < 0 := by
    rw [h.r]
    decide
  obtain ⟨t, ht, hserr, hrun⟩ := zSrget_reads env (s.fp.size.toNat + 1) results i
    (s := s.setR (s.fp.r - 1)) h.reads heof (by omega)
  have heof' : t.fp.has SEOF = decide (results i = .delivered []) := by
    rw [ht.eof]
    change (s.fp.has SEOF || _) = _
    rw [heof, Bool.false_or]
  have hfull : Holds size t (results i).bytes := h.refilled ht hfit
  have hget : zGetc env (s.fp.size.toNat + 1) (inTurn results) i s =
      zSrget env (s.fp.size.toNat + 1) (inTurn results) i (s.setR (s.fp.r - 1)) := if_pos hneg
  rw [hget, hrun]
  cases hresult : results i with
  | failed errno =>
    rw [hresult] at hfull hserr heof'
    exact ⟨t, -1, rfl, hfull, hserr, heof', by rw [if_neg (by simp)]; rfl⟩
  | delivered bytes =>
    rw [hresult] at hfull hserr heof'
    cases bytes with
    | nil => exact ⟨t, -1, rfl, hfull, hserr, heof', by rw [if_pos rfl]⟩
    | cons b bytes =>
      obtain ⟨hnext, hret⟩ := hfull.take
      refine ⟨(takeByte (t.setR (t.fp.r - 1))).1, b.toNat, ?_, hnext, hserr, heof', ?_⟩
      · rw [← hret]
        rfl
      · rw [if_neg (by simp)]
        rfl

inductive Calls (env : Stdio → ℕ → Response) (results : ℕ → ReadResult) :
    ℕ → ZFile → List Got → ℕ → ZFile → Prop where
  | nil (i s) : Calls env results i s [] i s
  | cons {i j k s t u c gs} :
    zGetc env (s.fp.size.toNat + 1) (inTurn results) i s = some (j, t, c) →
    Calls env results j t gs k u →
    Calls env results i s (⟨c, t.fp.has SERR, t.fp.has SEOF, j⟩ :: gs) k u

variable {env}

theorem Calls.append {i j k : ℕ} {s t u : ZFile} {gs gs' : List Got}
    (h : Calls env results i s gs j t) (h' : Calls env results j t gs' k u) :
    Calls env results i s (gs ++ gs') k u := by
  induction h with
  | nil => exact h'
  | cons hcall _ ih => exact .cons hcall (ih h')

theorem Calls.getcs {i j : ℕ} {s t : ZFile} {gs : List Got} (h : Calls env results i s gs j t) :
    getcs env results gs.length i s = some gs := by
  induction h with
  | nil => rfl
  | cons hcall _ ih =>
    rw [List.length_cons, StreamReads.getcs, hcall, Option.bind_some]
    simp only [ih, Option.map_some]

variable (env) in
theorem calls_pending {s : ZFile} {bs : List UInt8} (h : Holds size s bs) (i : ℕ) :
    ∃ t, Calls env results i s
        (bs.map fun b => ⟨b.toNat, s.fp.has SERR, s.fp.has SEOF, i⟩) i t ∧ Holds size t [] ∧
      t.fp.has SERR = s.fp.has SERR ∧ t.fp.has SEOF = s.fp.has SEOF := by
  induction bs generalizing s with
  | nil => exact ⟨s, .nil i s, h, rfl, rfl⟩
  | cons b bs ih =>
    obtain ⟨t, hcall, ht, hserr, hseof⟩ := getc_pending env h i
    obtain ⟨u, hrest, hu, hserr', hseof'⟩ := ih ht
    rw [hserr, hseof] at hrest
    refine ⟨u, ?_, hu, hserr'.trans hserr, hseof'.trans hseof⟩
    have := Calls.cons hcall hrest
    rwa [hserr, hseof] at this

variable (env) in
theorem calls_ended {s : ZFile} (h : Holds size s []) (heof : s.fp.has SEOF = true) (i n : ℕ) :
    ∃ t, Calls env results i s (List.replicate n ⟨-1, s.fp.has SERR, true, i⟩) i t := by
  induction n generalizing s with
  | zero => exact ⟨s, .nil i s⟩
  | succ n ih =>
    obtain ⟨t, hcall, ht, hserr, hseof⟩ := getc_ended env h heof i
    obtain ⟨u, hrest⟩ := ih ht hseof
    rw [hserr] at hrest
    have := Calls.cons hcall hrest
    rw [hserr, hseof] at this
    exact ⟨u, this⟩

theorem erred_succ (results : ℕ → ReadResult) (serr : Bool) (k : ℕ) :
    erred results serr (k + 1) = (erred results serr k || isFailed (results k)) := by
  simp [erred, List.range_succ, Bool.or_assoc]

theorem transcript_succ (results : ℕ → ReadResult) (serr : Bool) (k : ℕ) :
    transcript results serr (k + 1) = transcript results serr k ++
      (returned (results k)).map fun ret => ⟨ret, erred results serr (k + 1), false, k + 1⟩ := by
  simp [transcript, List.range_succ]

variable (env) in
/-- All that the first `k` results account for, if none of them is a zero. -/
theorem calls_transcript {s : ZFile} (h : Holds size s []) (heof : s.fp.has SEOF = false)
    (hfit : ∀ i, (results i).bytes.length ≤ size.toNat) (k : ℕ)
    (hk : ∀ i < k, results i ≠ .delivered []) :
    ∃ t, Calls env results 0 s (transcript results (s.fp.has SERR) k) k t ∧ Holds size t [] ∧
      t.fp.has SERR = erred results (s.fp.has SERR) k ∧ t.fp.has SEOF = false := by
  induction k with
  | zero => exact ⟨s, .nil 0 s, h, by simp [erred], heof⟩
  | succ k ih =>
    obtain ⟨t, hcalls, ht, hserr, hseof⟩ := ih fun i hi => hk i (Nat.lt_succ_of_lt hi)
    obtain ⟨u, c, hcall, hu, hserr', hseof', hret⟩ := getc_reads env ht hseof k (hfit k)
    rw [if_neg (hk k (Nat.lt_succ_self k))] at hret
    rw [hserr, ← erred_succ] at hserr'
    rw [decide_eq_false (hk k (Nat.lt_succ_self k))] at hseof'
    obtain ⟨v, hrest, hv, hserr'', hseof''⟩ := calls_pending env hu (k + 1)
    refine ⟨v, ?_, hv, hserr''.trans hserr', hseof''.trans hseof'⟩
    rw [transcript_succ, hret, List.map_cons, List.map_map]
    refine hcalls.append ?_
    have := Calls.cons hcall hrest
    rwa [hserr', hseof'] at this

/-- Every byte before the first zero is returned once and in order, every error as one -1, and
nothing is read after the zero. -/
theorem getc_delivers {s : ZFile} (hs : ReadStream s) (hr : s.fp.r = 0) (hfit : Fitting results s)
    (env : Stdio → ℕ → Response) : GetcContract env results s := by
  have hempty : Holds s.fp.size s [] := ⟨hs, rfl, hr, rfl, nofun⟩
  constructor
  · intro heof k hk
    obtain ⟨t, hcalls, -, -, -⟩ := calls_transcript env hempty heof hfit k hk
    exact hcalls.getcs
  · intro heof k hk hzero n
    obtain ⟨t, hcalls, ht, hserr, hseof⟩ := calls_transcript env hempty heof hfit k hk
    cases n with
    | zero =>
      rw [List.replicate_zero, List.append_nil]
      exact hcalls.getcs
    | succ n =>
      -- the call that meets the zero, and those after it
      obtain ⟨u, c, hcall, hu, hserr', hseof', hret⟩ := getc_reads env ht hseof k (hfit k)
      rw [if_pos hzero] at hret
      rw [decide_eq_true hzero] at hseof'
      rw [hserr, hzero, isFailed, Bool.or_false] at hserr'
      rw [hzero] at hu
      obtain ⟨v, hrest⟩ := calls_ended env hu hseof' (k + 1) n
      have hlast := Calls.cons hcall hrest
      rw [hserr', hseof', hret] at hlast
      have hall := (hcalls.append hlast).getcs
      rw [List.length_append, List.length_cons, List.length_replicate] at hall
      exact hall
  · intro heof n
    obtain ⟨t, hcalls⟩ : ∃ t, Calls env results 0 s _ 0 t := calls_ended env hempty heof 0 n
    have hall := hcalls.getcs
    rwa [List.length_replicate] at hall

def abErrorC : ℕ → ReadResult
  | 0 => .delivered [97, 98]
  | 1 => .failed EAGAIN
  | 2 => .delivered [99]
  | _ => .delivered []

def buffered : ZFile where
  fp := ⟨4096, 0, 0, SRD, 4096, 2, 0, false⟩
  mem _ := 0
  errno := 0
  turn := 0
  attempts := []
  lbfsize := 0
  output := []

theorem getc_delivers_ab_c :
    GetcContract (fun _ _ => ⟨0, 0, .accepted 0⟩) abErrorC buffered := by
  refine getc_delivers ⟨by decide, by decide, by decide⟩ rfl (fun i => ?_) _
  match i with
  | 0 => decide
  | 1 => decide
  | 2 => decide
  | i + 3 => exact Nat.zero_le _

end StreamReads

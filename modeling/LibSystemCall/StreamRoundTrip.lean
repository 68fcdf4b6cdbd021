import LibSystemCall.StreamReads

/-! # Bytes put into one stream and read back through another

The descriptor of the first stream keeps what it accepts; the descriptor of the second one
returns it in reads of any positive size, and zero at the end. -/
namespace StreamRoundTrip

open ByteMemory StreamFile StreamPut StreamGet StreamReads

def count (k : Kernel) (size rest i : ℕ) : ℕ := min (k i (min size rest)) rest

def position (k : Kernel) (size : ℕ) (content : List UInt8) : ℕ → ℕ
  | 0 => 0
  | i + 1 => position k size content i +
      count k size (content.length - position k size content i) i

def fileReads (k : Kernel) (size : ℕ) (content : List UInt8) (i : ℕ) : ReadResult :=
  let at_ := position k size content i
  .delivered ((content.drop at_).take (count k size (content.length - at_) i))

theorem fileReads_end {k : Kernel} {size i : ℕ} {content : List UInt8}
    (h : position k size content i = content.length) :
    fileReads k size content i = .delivered [] := by
  simp only [fileReads, h, List.drop_length, List.take_nil]

theorem fileReads_join (k : Kernel) (size : ℕ) (content : List UInt8) (j : ℕ) :
    (List.range j).flatMap (fun i => (fileReads k size content i).bytes) =
      content.take (position k size content j) := by
  induction j with
  | zero => rfl
  | succ j ih =>
    rw [List.range_succ, List.flatMap_append, ih, List.flatMap_singleton, position, List.take_add]
    rfl

section Reads

variable {k : Kernel} (hk : Accepting k) {size : ℕ} (hsize : 0 < size) {content : List UInt8}

include hk hsize

theorem count_pos {rest : ℕ} (hrest : 0 < rest) (i : ℕ) :
    1 ≤ count k size rest i ∧ count k size rest i ≤ min size rest := by
  obtain ⟨hlo, hhi⟩ := hk i (min size rest) (by omega)
  unfold count
  omega

theorem count_le (rest i : ℕ) : count k size rest i ≤ min size rest := by
  rcases Nat.eq_zero_or_pos rest with rfl | hrest
  · simp [count]
  · exact (count_pos hk hsize hrest i).2

variable (content) in
theorem position_bounds (i : ℕ) :
    min i content.length ≤ position k size content i ∧
      position k size content i ≤ content.length := by
  induction i with
  | zero => exact ⟨by omega, Nat.zero_le _⟩
  | succ i ih =>
    have hle := count_le hk hsize (content.length - position k size content i) i
    rw [position]
    refine ⟨?_, by omega⟩
    rcases Nat.eq_zero_or_pos (content.length - position k size content i) with hz | hpos
    · omega
    · have := (count_pos hk hsize hpos i).1
      omega

variable (content) in
theorem end_reached : ∃ j, position k size content j = content.length ∧
    ∀ i < j, position k size content i < content.length := by
  have hex : ∃ j, position k size content j = content.length :=
    ⟨content.length, by have := position_bounds hk hsize content content.length; omega⟩
  classical
  refine ⟨Nat.find hex, Nat.find_spec hex, fun i hi => ?_⟩
  have hne := Nat.find_min hex hi
  have := (position_bounds hk hsize content i).2
  omega

theorem fileReads_fit (i : ℕ) : (fileReads k size content i).bytes.length ≤ size := by
  have hle := count_le hk hsize (content.length - position k size content i) i
  simp only [fileReads, ReadResult.bytes, List.length_take]
  omega

theorem fileReads_nonempty {i : ℕ} (h : position k size content i < content.length) :
    fileReads k size content i ≠ .delivered [] := by
  have hpos := (count_pos hk hsize (Nat.sub_pos_of_lt h) i).1
  intro hnil
  have hlen := congrArg (fun r => r.bytes.length) hnil
  simp only [fileReads, ReadResult.bytes, List.length_take, List.length_drop,
    List.length_nil] at hlen
  omega

end Reads

theorem transcript_rets (results : ℕ → ReadResult) (serr : Bool) (j : ℕ)
    (h : ∀ i < j, ∃ bytes, results i = .delivered bytes) :
    (transcript results serr j).map (·.ret) =
      ((List.range j).flatMap fun i => (results i).bytes).map fun b => (b.toNat : ℤ) := by
  induction j with
  | zero => rfl
  | succ j ih =>
    obtain ⟨bytes, hbytes⟩ := h j (Nat.lt_succ_self j)
    rw [transcript_succ, List.map_append, ih fun i hi => h i (Nat.lt_succ_of_lt hi),
      List.range_succ, List.flatMap_append, List.flatMap_singleton, List.map_append, hbytes]
    simp [returned, ReadResult.bytes]

theorem calls_zero (env : Stdio → ℕ → Response) {results : ℕ → ReadResult}
    {size : BitVec 32} {s : ZFile} (h : Holds size s []) (heof : s.fp.has SEOF = false) {j : ℕ}
    (hzero : results j = .delivered []) (n : ℕ) :
    ∃ t gs, Calls env results j s gs (if n = 0 then j else j + 1) t ∧
      gs.map (·.ret) = List.replicate n (-1) := by
  cases n with
  | zero => exact ⟨s, [], .nil j s, rfl⟩
  | succ n =>
    have hfit : (results j).bytes.length ≤ size.toNat := by
      rw [hzero]
      exact Nat.zero_le _
    obtain ⟨t, c, hcall, ht, -, hseof, hret⟩ := getc_reads env h heof j hfit
    rw [if_pos hzero] at hret
    rw [decide_eq_true hzero] at hseof
    rw [hzero] at ht
    obtain ⟨u, hrest⟩ := calls_ended env ht hseof (j + 1) n
    refine ⟨u, _, .cons hcall hrest, ?_⟩
    simp [hret, List.replicate_succ]

/-- A file is returned byte by byte, and then its end for ever. -/
theorem getc_file {k : Kernel} (hk : Accepting k) (env : Stdio → ℕ → Response)
    {t : ZFile} (ht : ReadStream t) (hr : t.fp.r = 0) (heof : t.fp.has SEOF = false)
    (content : List UInt8) (n : ℕ) :
    ∃ gs, getcs env (fileReads k t.fp.size.toNat content) (content.length + n) 0 t = some gs ∧
      gs.map (·.ret) = content.map (fun b => (b.toNat : ℤ)) ++ List.replicate n (-1) := by
  have hsize : 0 < t.fp.size.toNat := by
    have := StreamPut.size_small ht.nonempty
    have := ht.nonempty
    omega
  obtain ⟨j, hend, hbefore⟩ := end_reached hk hsize content
  have hempty : Holds t.fp.size t [] := ⟨ht, rfl, hr, rfl, nofun⟩
  obtain ⟨u, hcalls, hu, -, hseof⟩ := calls_transcript env hempty heof
    (fileReads_fit hk hsize) j fun i hi => fileReads_nonempty hk hsize (hbefore i hi)
  obtain ⟨v, gs, hlast, hgs⟩ := calls_zero env hu hseof (fileReads_end hend) n
  have hrets := transcript_rets (fileReads k t.fp.size.toNat content) (t.fp.has SERR) j
    fun i _ => ⟨_, rfl⟩
  rw [fileReads_join, hend, List.take_length] at hrets
  have hlen : (transcript (fileReads k t.fp.size.toNat content) (t.fp.has SERR) j ++ gs).length =
      content.length + n := by
    have h₁ := congrArg List.length hrets
    have h₂ := congrArg List.length hgs
    rw [List.length_map, List.length_map] at h₁
    rw [List.length_map, List.length_replicate] at h₂
    rw [List.length_append, h₁, h₂]
  refine ⟨_ ++ gs, ?_, by rw [List.map_append, hrets, hgs]⟩
  rw [← hlen]
  exact (hcalls.append hlast).getcs

/-- What is put and flushed comes back, whatever the buffering of the two streams and the
sizes in which the kernel takes and returns the bytes. -/
theorem written_read_back {k r : Kernel} (hk : Accepting k) (hr : Accepting r) {m : Mode}
    {s t : ZFile} (hs : Fresh m s) (calls : List Call) (ht : ReadStream t) (hempty : t.fp.r = 0)
    (heof : t.fp.has SEOF = false) (env : Stdio → ℕ → Response) (n : ℕ) :
    ∃ s', runCalls k s (calls ++ [.fflush]) = some s' ∧
      ∃ gs, getcs env (fileReads r t.fp.size.toNat s'.output) ((bytesPut calls).length + n) 0 t =
          some gs ∧
        gs.map (·.ret) =
          (bytesPut calls).map (fun b => (b.toNat : ℤ)) ++ List.replicate n (-1) := by
  obtain ⟨u, hrun, -, used, hu⟩ := hs.buffered.runCalls hk calls
  obtain ⟨s', hflush, hs', -⟩ := Buffered.zFflush hk hu.toHeld hu.mode
    (Nat.lt_succ_of_le hu.room)
  have houtput : s'.output = bytesPut calls := by
    have := hs'.content
    rwa [List.nil_append, show load s'.mem s'.base 0 = [] from rfl, List.append_nil] at this
  refine ⟨s', ?_, ?_⟩
  · rw [runCalls_append, hrun, Option.bind_some, StreamPut.runCalls, Call.run, hflush]
    rfl
  · rw [houtput]
    exact getc_file hr env ht hempty heof _ n

/-- Two lines, written one byte at a time and read three at a time. -/
theorem two_lines_read_back :
    ∃ s', runCalls (fun _ _ => 1) fourBytes ([.putc 97, .putc 10, .putc 98] ++ [.fflush]) =
        some s' ∧
      ∃ gs, getcs (fun _ _ => ⟨0, 0, .accepted 0⟩) (fileReads (fun _ n => min n 3)
          buffered.fp.size.toNat s'.output)
          ((bytesPut [.putc 97, .putc 10, .putc 98]).length + 2) 0 buffered = some gs ∧
        gs.map (·.ret) =
          (bytesPut [.putc 97, .putc 10, .putc 98]).map (fun b => (b.toNat : ℤ)) ++
            List.replicate 2 (-1) :=
  written_read_back (fun _ _ hn => ⟨Nat.le_refl 1, hn⟩)
    (fun _ n hn => ⟨by omega, Nat.min_le_left n 3⟩) fourBytes_fresh _
    ⟨by decide, by decide, by decide⟩ rfl (by decide) _ 2

end StreamRoundTrip

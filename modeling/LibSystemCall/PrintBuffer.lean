import LibSystemCall.ByteMemory
import Mathlib.Data.List.DropRight
import Mathlib.Data.Prod.Basic

/-! # The shared output buffer of the print functions

`putcharfd` collects bytes in `outbuf` for one descriptor at a time. Every `z_write`
is taken to write all its bytes; `written` is their log. -/
namespace PrintBuffer

open ByteMemory

def OUTBUFSIZE : ℕ := 128

/-- `outptr` is an offset from `outbuf`; `highest` is ghost, the largest offset it has held. -/
structure PrintState where
  lastfd : ℤ
  outbuf : Memory
  outptr : ℕ
  written : List (ℤ × UInt8)
  highest : ℕ

/-- The first call sets `outptr` before it is read. -/
def initial : PrintState := ⟨-1, fun _ => 0, 0, [], 0⟩

def zWrite (s : PrintState) (fd : ℤ) (bs : List UInt8) : PrintState :=
  { s with written := s.written ++ bs.map (Prod.mk fd) }

def zFlushbuf (s : PrintState) : PrintState :=
  let len := s.outptr
  if len ≠ 0 then
    let s := if s.lastfd ≠ -1 then zWrite s s.lastfd (load s.outbuf 0 len) else s
    { s with outptr := 0 }
  else s

def isBreak (b : UInt8) : Bool := b = '\n'.toUInt8 || b = '\r'.toUInt8

def putcharfd (s : PrintState) (fd : ℤ) (b : UInt8) : PrintState :=
  let s := if fd ≠ s.lastfd then { zFlushbuf s with lastfd := fd } else s
  let s := { s with
    outbuf := store s.outbuf s.outptr [b]
    outptr := s.outptr + 1
    highest := max s.highest (s.outptr + 1) }
  let len := s.outptr
  if len ≥ OUTBUFSIZE ∨ isBreak b then zFlushbuf s else s

def putAll (s : PrintState) (fd : ℤ) (t : List UInt8) : PrintState :=
  t.foldl (fun s b => putcharfd s fd b) s

@[simp] theorem putAll_nil (s : PrintState) (fd : ℤ) : putAll s fd [] = s := rfl

@[simp] theorem putAll_cons (s : PrintState) (fd : ℤ) (b : UInt8) (t : List UInt8) :
    putAll s fd (b :: t) = putAll (putcharfd s fd b) fd t := rfl

theorem putAll_append (s : PrintState) (fd : ℤ) (t u : List UInt8) :
    putAll s fd (t ++ u) = putAll (putAll s fd t) fd u := List.foldl_append

def pending (s : PrintState) : List UInt8 := load s.outbuf 0 s.outptr

def unbroken (t : List UInt8) : List UInt8 := t.rtakeWhile fun b => !isBreak b

def unsent (t : List UInt8) : ℕ := (unbroken t).length % OUTBUFSIZE

theorem unsent_lt (t : List UInt8) : unsent t < OUTBUFSIZE := Nat.mod_lt _ (by decide)

theorem unsent_le (t : List UInt8) : unsent t ≤ t.length :=
  (Nat.mod_le _ _).trans (List.rtakeWhile_suffix _ t).length_le

theorem unsent_concat (t : List UInt8) (b : UInt8) :
    unsent (t ++ [b]) = if OUTBUFSIZE ≤ unsent t + 1 ∨ isBreak b then 0 else unsent t + 1 := by
  have hlt := unsent_lt t
  unfold unsent unbroken at *
  by_cases hb : isBreak b
  · rw [List.rtakeWhile_concat_neg _ _ _ (by simp [hb]), if_pos (Or.inr hb)]
    rfl
  · rw [List.rtakeWhile_concat_pos _ _ _ (by simp [hb]), List.length_append]
    simp only [hb, Bool.false_eq_true, or_false, OUTBUFSIZE, List.length_singleton] at *
    split <;> omega

theorem unsent_eq_length (t : List UInt8) :
    unsent t = t.length ↔ t.length < OUTBUFSIZE ∧ ∀ b ∈ t, ¬ isBreak b := by
  have hle := (List.rtakeWhile_suffix (fun b => !isBreak b) t).length_le
  constructor
  · intro h
    have hmod := Nat.mod_le (unbroken t).length OUTBUFSIZE
    have heq : unbroken t = t := by
      refine (List.rtakeWhile_suffix _ t).eq_of_length_le ?_
      unfold unsent unbroken at h hmod
      omega
    refine ⟨h ▸ unsent_lt t, fun b hb => ?_⟩
    simpa using List.rtakeWhile_eq_self_iff.mp heq b hb
  · rintro ⟨hlen, hb⟩
    have heq : unbroken t = t := List.rtakeWhile_eq_self_iff.mpr fun b h => by simpa using hb b h
    rw [unsent, heq, Nat.mod_eq_of_lt hlen]

def delivered (fd : ℤ) (t : List UInt8) : List (ℤ × UInt8) :=
  if fd = -1 then [] else (t.take (t.length - unsent t)).map (Prod.mk fd)

structure Printed (s₀ : PrintState) (fd : ℤ) (t : List UInt8) (s : PrintState) : Prop where
  lastfd : t ≠ [] → s.lastfd = fd
  outptr : s.outptr = unsent t
  held : pending s = t.drop (t.length - unsent t)
  log : s.written = s₀.written ++ delivered fd t
  high : s₀.highest ≤ OUTBUFSIZE → s.highest ≤ OUTBUFSIZE

theorem printed_nil {s : PrintState} {fd : ℤ} (hs : s.outptr = 0) : Printed s fd [] s where
  lastfd h := absurd rfl h
  outptr := hs
  held := by simp [pending, hs]
  log := by simp [delivered]
  high := id

/-- The descriptor is switched without a write: the buffer holds nothing of another one. -/
theorem switch_eq {s : PrintState} {fd : ℤ} (h : s.outptr = 0 ∨ s.lastfd = fd) :
    (if fd ≠ s.lastfd then { zFlushbuf s with lastfd := fd } else s) = { s with lastfd := fd } := by
  by_cases hfd : fd = s.lastfd
  · rw [if_neg (by simp [hfd]), hfd]
  · have h0 : s.outptr = 0 := h.resolve_right (Ne.symm hfd)
    rw [if_pos hfd, zFlushbuf, if_neg (by simp [h0])]

theorem pending_push (m : Memory) (n : ℕ) (b : UInt8) :
    load (store m n [b]) 0 (n + 1) = load m 0 n ++ [b] := by
  rw [load_add, load_store_disjoint (by left; omega), Nat.zero_add]
  congr 1
  exact load_store_same m n [b]

def pushed (s : PrintState) (fd : ℤ) (b : UInt8) : PrintState :=
  { s with
    lastfd := fd
    outbuf := store s.outbuf s.outptr [b]
    outptr := s.outptr + 1
    highest := max s.highest (s.outptr + 1) }

theorem putcharfd_eq {s : PrintState} {fd : ℤ} {b : UInt8} (h : s.outptr = 0 ∨ s.lastfd = fd) :
    putcharfd s fd b =
      if OUTBUFSIZE ≤ s.outptr + 1 ∨ isBreak b then zFlushbuf (pushed s fd b)
      else pushed s fd b := by
  simp only [putcharfd, switch_eq h]
  rfl

theorem pending_pushed (s : PrintState) (fd : ℤ) (b : UInt8) :
    pending (pushed s fd b) = pending s ++ [b] := pending_push s.outbuf s.outptr b

theorem flush_pushed (s : PrintState) (fd : ℤ) (b : UInt8) :
    zFlushbuf (pushed s fd b) =
      { pushed s fd b with
        outptr := 0
        written := s.written ++
          if fd = -1 then [] else (pending s ++ [b]).map (Prod.mk fd) } := by
  have hne : (pushed s fd b).outptr ≠ 0 := Nat.succ_ne_zero _
  rw [zFlushbuf, if_pos hne, ← pending_pushed s fd b]
  by_cases hfd : fd = -1
  · simp [pushed, hfd]
  · simp [pushed, zWrite, pending, hfd]

theorem Printed.putcharfd {s₀ s : PrintState} {fd : ℤ} {t : List UInt8}
    (h : Printed s₀ fd t s) (b : UInt8) :
    Printed s₀ fd (t ++ [b]) (putcharfd s fd b) := by
  have hsw : s.outptr = 0 ∨ s.lastfd = fd := by
    by_cases ht : t = []
    · left
      rw [h.outptr, ht]
      rfl
    · exact .inr (h.lastfd ht)
  have hlt := unsent_lt t
  have hle := unsent_le t
  have hlen : (t ++ [b]).length = t.length + 1 := by simp
  have hhigh : s₀.highest ≤ OUTBUFSIZE → (pushed s fd b).highest ≤ OUTBUFSIZE := by
    intro h₀
    have := h.high h₀
    have := h.outptr
    simp only [pushed]
    omega
  rw [putcharfd_eq hsw, h.outptr]
  by_cases hfl : OUTBUFSIZE ≤ unsent t + 1 ∨ isBreak b
  · have hun : unsent (t ++ [b]) = 0 := by rw [unsent_concat, if_pos hfl]
    rw [if_pos hfl, flush_pushed]
    refine ⟨fun _ => rfl, hun.symm, ?_, ?_, hhigh⟩
    · rw [hun, Nat.sub_zero, List.drop_length]
      rfl
    · simp only [delivered, hun, Nat.sub_zero, List.take_length, h.log, h.held, List.append_assoc]
      by_cases hfd : fd = -1
      · simp [hfd]
      · simp only [if_neg hfd, ← List.map_append, ← List.append_assoc, List.take_append_drop]
  · have hun : unsent (t ++ [b]) = unsent t + 1 := by rw [unsent_concat, if_neg hfl]
    rw [if_neg hfl]
    refine ⟨fun _ => rfl, by rw [hun, ← h.outptr]; rfl, ?_, ?_, hhigh⟩
    · rw [pending_pushed, h.held, hun, hlen, List.drop_append_of_le_length (by omega)]
      congr 2
      omega
    · simp only [pushed, h.log, delivered, hun, hlen]
      rw [List.take_append_of_le_length (by omega)]
      congr 4
      omega

theorem printed_all {s : PrintState} (fd : ℤ) (hs : s.outptr = 0) (t : List UInt8) :
    Printed s fd t (putAll s fd t) := by
  induction t using List.reverseRecOn with
  | nil => exact printed_nil hs
  | append_singleton t b ih =>
    rw [putAll_append]
    exact ih.putcharfd b

end PrintBuffer

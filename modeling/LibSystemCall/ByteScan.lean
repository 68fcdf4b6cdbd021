import LibSystemCall.ByteMemory

/-! # Scanners that fetch one byte at a time

A scanner is a function of its state and of the byte it has just fetched. Over memory it
fetches address after address; over a list it has no result once the list is used up. -/
namespace ByteScan

open ByteMemory

/-- What a scanner does on a byte. A scanner that is `stuck` has no defined next step. -/
inductive Turn (σ : Type*) where
  | stuck
  | done (s : σ)
  | next (s : σ)

variable {σ : Type*} (turn : σ → UInt8 → Turn σ)

/-- The final state, and the last address that was read. -/
def scan (m : Memory) : ℕ → ℕ → σ → Option (σ × ℕ)
  | 0, _, _ => none
  | fuel + 1, pos, s =>
    match turn s (m pos) with
    | .stuck => none
    | .done s => some (s, pos)
    | .next s => scan m fuel (pos + 1) s

def consume : List UInt8 → σ → Option σ
  | [], _ => none
  | b :: bs, s =>
    match turn s b with
    | .stuck => none
    | .done s => some s
    | .next s => consume bs s

/-- The scan comes to an end without reading a byte at `stop` or after it. -/
def ReadsBefore (m : Memory) (pos stop : ℕ) (s : σ) : Prop :=
  ∃ fuel s' p, scan turn m fuel pos s = some (s', p) ∧ p < stop

variable {turn} {m : Memory} {pos stop : ℕ} {s : σ}

theorem le_of_scan {fuel : ℕ} {s' : σ} {p : ℕ} (h : scan turn m fuel pos s = some (s', p)) :
    pos ≤ p := by
  induction fuel generalizing pos s with
  | zero => exact absurd h (by simp [scan])
  | succ fuel ih =>
    rw [scan] at h
    cases ht : turn s (m pos) with
    | stuck => simp [ht] at h
    | done t =>
      simp only [ht, Option.some.injEq, Prod.mk.injEq] at h
      omega
    | next t =>
      simp only [ht] at h
      have := ih h
      omega

theorem readsBefore_stuck (h : turn s (m pos) = .stuck) : ¬ ReadsBefore turn m pos stop s := by
  rintro ⟨fuel, s', p, hs, -⟩
  cases fuel with
  | zero => exact absurd hs (by simp [scan])
  | succ fuel => simp [scan, h] at hs

theorem readsBefore_done {t : σ} (h : turn s (m pos) = .done t) :
    ReadsBefore turn m pos stop s ↔ pos < stop := by
  constructor
  · rintro ⟨fuel, s', p, hs, hp⟩
    have := le_of_scan hs
    omega
  · exact fun hp => ⟨1, t, pos, by simp [scan, h], hp⟩

theorem readsBefore_next {t : σ} (h : turn s (m pos) = .next t) :
    ReadsBefore turn m pos stop s ↔ ReadsBefore turn m (pos + 1) stop t := by
  constructor
  · rintro ⟨fuel, s', p, hs, hp⟩
    cases fuel with
    | zero => exact absurd hs (by simp [scan])
    | succ fuel =>
      simp only [scan, h] at hs
      exact ⟨fuel, s', p, hs, hp⟩
  · rintro ⟨fuel, s', p, hs, hp⟩
    exact ⟨fuel + 1, s', p, by simpa only [scan, h] using hs, hp⟩

/-- A scan stays within a range exactly when the bytes of the range are enough for it. -/
theorem readsBefore_iff (n : ℕ) :
    ReadsBefore turn m pos (pos + n) s ↔ (consume turn (load m pos n) s).isSome := by
  induction n generalizing pos s with
  | zero =>
    simp only [load_zero, consume, Option.isSome_none, Bool.false_eq_true, iff_false]
    rintro ⟨fuel, s', p, hs, hp⟩
    have := le_of_scan hs
    omega
  | succ n ih =>
    rw [load_cons, consume]
    cases ht : turn s (m pos) with
    | stuck => simpa using readsBefore_stuck ht
    | done t => simp [readsBefore_done ht]
    | next t =>
      rw [readsBefore_next ht, show pos + (n + 1) = pos + 1 + n by omega]
      exact ih

end ByteScan

import LibSystemCall.ByteMemory
import Mathlib.Algebra.Order.Ring.Int

/-! # z_strncmp

It stops at the first difference, at a NUL or after `n` bytes, and returns the difference
of the last two bytes it has compared. `char` is signed. -/
namespace StringStrncmp

open ByteMemory

def charValue (b : UInt8) : ℤ := b.toInt8.toInt

/-- The loop, where `n` has been decremented once. -/
def strncmpLoop (m : Memory) : ℕ → ℕ → ℕ → ℤ
  | 0, s1, s2 => charValue (m s1) - charValue (m s2)
  | n + 1, s1, s2 =>
    if m s1 ≠ 0 ∧ m s1 = m s2 then strncmpLoop m n (s1 + 1) (s2 + 1)
    else charValue (m s1) - charValue (m s2)

def zStrncmp (m : Memory) (s1 s2 n : ℕ) : ℤ := if n = 0 then 0 else strncmpLoop m (n - 1) s1 s2

variable {m : Memory} {n s1 s2 s3 : ℕ}

theorem charValue_inj {a b : UInt8} : charValue a = charValue b ↔ a = b := by
  constructor
  · intro h
    have h8 : a.toInt8 = b.toInt8 := Int8.toInt_inj.mp h
    simpa using congrArg Int8.toUInt8 h8
  · rintro rfl
    rfl

theorem strncmpLoop_swap (m : Memory) (n s1 s2 : ℕ) :
    strncmpLoop m n s1 s2 = -strncmpLoop m n s2 s1 := by
  induction n generalizing s1 s2 with
  | zero =>
    rw [strncmpLoop, strncmpLoop]
    omega
  | succ n ih =>
    rw [strncmpLoop, strncmpLoop]
    have hswap : m s2 ≠ 0 ∧ m s2 = m s1 ↔ m s1 ≠ 0 ∧ m s1 = m s2 :=
      ⟨fun h => ⟨h.2 ▸ h.1, h.2.symm⟩, fun h => ⟨h.2 ▸ h.1, h.2.symm⟩⟩
    by_cases h : m s1 ≠ 0 ∧ m s1 = m s2
    · rw [if_pos h, if_pos (hswap.mpr h), ih]
    · rw [if_neg h, if_neg (mt hswap.mp h)]
      omega

theorem charValue_le_of_strncmpLoop (h : strncmpLoop m n s1 s2 ≤ 0) :
    charValue (m s1) ≤ charValue (m s2) := by
  cases n with
  | zero =>
    rw [strncmpLoop] at h
    omega
  | succ n =>
    rw [strncmpLoop] at h
    by_cases heq : m s1 = m s2
    · exact (congrArg charValue heq).le
    · rw [if_neg fun k => heq k.2] at h
      omega

theorem strncmpLoop_trans (h12 : strncmpLoop m n s1 s2 ≤ 0) (h23 : strncmpLoop m n s2 s3 ≤ 0) :
    strncmpLoop m n s1 s3 ≤ 0 := by
  induction n generalizing s1 s2 s3 with
  | zero =>
    rw [strncmpLoop] at *
    omega
  | succ n ih =>
    have hle := charValue_le_of_strncmpLoop h12
    have hle' := charValue_le_of_strncmpLoop h23
    rw [strncmpLoop] at *
    by_cases h13 : m s1 ≠ 0 ∧ m s1 = m s3
    · -- all three bytes agree
      rw [h13.2] at hle
      have heq : m s3 = m s2 := charValue_inj.mp (le_antisymm hle hle')
      rw [if_pos ⟨h13.1, h13.2.trans heq⟩] at h12
      rw [if_pos ⟨by rw [← heq, ← h13.2]; exact h13.1, heq.symm⟩] at h23
      rw [if_pos h13]
      exact ih h12 h23
    · rw [if_neg h13]
      omega

theorem first_byte {a : ℕ} {s : List UInt8} (h : CStringAt m a s) :
    m a = 0 ∧ s = [] ∨ m a ≠ 0 ∧ ∃ s', s = m a :: s' ∧ CStringAt m (a + 1) s' := by
  cases s with
  | nil => exact .inl ⟨cStringAt_nil.mp h, rfl⟩
  | cons b s =>
    obtain ⟨rfl, hb, hrest⟩ := cStringAt_cons.mp h
    exact .inr ⟨hb, s, rfl, hrest⟩

theorem head_string {a : ℕ} {s : List UInt8} (h : CStringAt m a s) :
    ∃ rest, s ++ [0] = m a :: rest := by
  rcases first_byte h with ⟨ha, rfl⟩ | ⟨-, s', rfl, -⟩
  · exact ⟨[], by rw [ha, List.nil_append]⟩
  · exact ⟨s' ++ [0], rfl⟩

theorem strncmpLoop_eq_zero_iff {s t : List UInt8} (hs : CStringAt m s1 s)
    (ht : CStringAt m s2 t) :
    strncmpLoop m n s1 s2 = 0 ↔ (s ++ [0]).take (n + 1) = (t ++ [0]).take (n + 1) := by
  have differ {a b : UInt8} : charValue a - charValue b = 0 ↔ a = b := by
    rw [sub_eq_zero, charValue_inj]
  induction n generalizing s1 s2 s t with
  | zero =>
    obtain ⟨rest, hrest⟩ := head_string hs
    obtain ⟨rest', hrest'⟩ := head_string ht
    rw [strncmpLoop, differ, hrest, hrest']
    simp
  | succ n ih =>
    rw [strncmpLoop]
    by_cases hon : m s1 ≠ 0 ∧ m s1 = m s2
    · obtain ⟨s', rfl, hs'⟩ := ((first_byte hs).resolve_left fun h => hon.1 h.1).2
      obtain ⟨t', rfl, ht'⟩ := ((first_byte ht).resolve_left fun h => hon.1 (hon.2.trans h.1)).2
      rw [if_pos hon, List.cons_append, List.cons_append, List.take_succ_cons,
        List.take_succ_cons, ← hon.2, List.cons.injEq, and_iff_right rfl]
      exact ih hs' ht'
    · rw [if_neg hon, differ]
      constructor
      · -- the same byte, so both are at their NUL
        intro heq
        have hnul : m s1 = 0 := by
          by_contra hne
          exact hon ⟨hne, heq⟩
        have hs' : s = [] := ((first_byte hs).resolve_right fun h => h.1 hnul).2
        have ht' : t = [] := ((first_byte ht).resolve_right fun h => h.1 (heq ▸ hnul)).2
        rw [hs', ht']
      · intro htake
        obtain ⟨rest, hrest⟩ := head_string hs
        obtain ⟨rest', hrest'⟩ := head_string ht
        rw [hrest, hrest', List.take_succ_cons, List.take_succ_cons, List.cons.injEq] at htake
        exact htake.1

theorem strncmpLoop_eq_zero {s t : List UInt8} (hs : CStringAt m s1 s) (ht : CStringAt m s2 t)
    (hn : s.length ≤ n) : strncmpLoop m n s1 s2 = 0 ↔ s = t := by
  have hall : (s ++ [0]).take (n + 1) = s ++ [0] := List.take_of_length_le (by simpa using hn)
  rw [strncmpLoop_eq_zero_iff hs ht, hall]
  constructor
  · intro h
    have hbegins : s ++ [0] <+: t ++ [0] := h ▸ List.take_prefix _ _
    rcases List.prefix_concat_iff.mp hbegins with heq | hinside
    · exact List.append_cancel_right heq
    · exact absurd (hinside.subset (by simp)) ht.noNul
  · rintro rfl
    exact hall.symm

def loggedLoop (m : Memory) : ℕ → ℕ → ℕ → ℤ × List (ℕ × ℕ)
  | 0, s1, s2 => (charValue (m s1) - charValue (m s2), [(s1, s2)])
  | n + 1, s1, s2 =>
    if m s1 ≠ 0 ∧ m s1 = m s2 then
      let r := loggedLoop m n (s1 + 1) (s2 + 1)
      (r.1, (s1, s2) :: r.2)
    else (charValue (m s1) - charValue (m s2), [(s1, s2)])

def loggedStrncmp (m : Memory) (s1 s2 n : ℕ) : ℤ × List (ℕ × ℕ) :=
  if n = 0 then (0, []) else loggedLoop m (n - 1) s1 s2

theorem loggedLoop_value (m : Memory) (n s1 s2 : ℕ) :
    (loggedLoop m n s1 s2).1 = strncmpLoop m n s1 s2 := by
  induction n generalizing s1 s2 with
  | zero => rfl
  | succ n ih =>
    rw [loggedLoop, strncmpLoop]
    split
    · exact ih _ _
    · rfl

theorem loggedStrncmp_value (m : Memory) (s1 s2 n : ℕ) :
    (loggedStrncmp m s1 s2 n).1 = zStrncmp m s1 s2 n := by
  unfold loggedStrncmp zStrncmp
  split
  · rfl
  · exact loggedLoop_value m _ s1 s2

theorem loggedLoop_within {s t : List UInt8} (hs : CStringAt m s1 s) (ht : CStringAt m s2 t) :
    ∀ r ∈ (loggedLoop m n s1 s2).2,
      (s1 ≤ r.1 ∧ r.1 ≤ s1 + s.length) ∧ (s2 ≤ r.2 ∧ r.2 ≤ s2 + t.length) := by
  induction n generalizing s1 s2 s t with
  | zero =>
    intro r hr
    obtain rfl := List.mem_singleton.mp hr
    omega
  | succ n ih =>
    intro r hr
    rw [loggedLoop] at hr
    by_cases hon : m s1 ≠ 0 ∧ m s1 = m s2
    · obtain ⟨s', rfl, hs'⟩ := ((first_byte hs).resolve_left fun h => hon.1 h.1).2
      obtain ⟨t', rfl, ht'⟩ := ((first_byte ht).resolve_left fun h => hon.1 (hon.2.trans h.1)).2
      rw [if_pos hon] at hr
      simp only [List.length_cons]
      rcases List.mem_cons.mp hr with rfl | hr
      · omega
      · have := ih hs' ht' r hr
        omega
    · rw [if_neg hon] at hr
      obtain rfl := List.mem_singleton.mp hr
      omega

end StringStrncmp

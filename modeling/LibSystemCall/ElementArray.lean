import LibSystemCall.ByteMemory

/-! # Arrays of fixed-size elements

An element is its bytes. `Laid` says that a list of elements stands in memory from an
address on. -/
namespace ElementArray

open ByteMemory

variable {size : ℕ} {m m' : Memory} {p q : ℕ}

def Laid (size : ℕ) (m : Memory) : ℕ → List (List UInt8) → Prop
  | _, [] => True
  | p, e :: es => load m p size = e ∧ Laid size m (p + size) es

def elements (size : ℕ) (m : Memory) : ℕ → ℕ → List (List UInt8)
  | _, 0 => []
  | p, n + 1 => load m p size :: elements size m (p + size) n

@[simp] theorem length_elements (m : Memory) (p n : ℕ) : (elements size m p n).length = n := by
  induction n generalizing p with
  | zero => rfl
  | succ n ih => rw [elements, List.length_cons, ih]

theorem laid_elements (m : Memory) (p n : ℕ) : Laid size m p (elements size m p n) := by
  induction n generalizing p with
  | zero => trivial
  | succ n ih => exact ⟨rfl, ih (p + size)⟩

theorem Laid.elements_eq {es : List (List UInt8)} (h : Laid size m p es) :
    elements size m p es.length = es := by
  induction es generalizing p with
  | nil => rfl
  | cons e es ih => rw [List.length_cons, elements, h.1, ih h.2]

theorem laid_append {xs ys : List (List UInt8)} :
    Laid size m p (xs ++ ys) ↔ Laid size m p xs ∧ Laid size m (p + xs.length * size) ys := by
  induction xs generalizing p with
  | nil => simp [Laid]
  | cons x xs ih =>
    have hstep : p + (xs.length + 1) * size = p + size + xs.length * size := by
      rw [Nat.succ_mul]
      omega
    rw [List.cons_append, Laid, ih, Laid, List.length_cons, hstep, and_assoc]

theorem elements_add (m : Memory) (p n k : ℕ) :
    elements size m p (n + k) = elements size m p n ++ elements size m (p + n * size) k := by
  have hlaid : Laid size m p (elements size m p n ++ elements size m (p + n * size) k) := by
    rw [laid_append, length_elements]
    exact ⟨laid_elements m p n, laid_elements m (p + n * size) k⟩
  have h := hlaid.elements_eq
  rwa [List.length_append, length_elements, length_elements] at h

theorem Laid.copy {es : List (List UInt8)} (h : Laid size m p es)
    (hm : ∀ i < es.length * size, m' (q + i) = m (p + i)) : Laid size m' q es := by
  induction es generalizing p q with
  | nil => trivial
  | cons e es ih =>
    have hlen : (e :: es).length * size = es.length * size + size := by
      rw [List.length_cons, Nat.succ_mul]
    refine ⟨?_, ih h.2 fun i hi => ?_⟩
    · rw [← h.1]
      exact load_congr fun i hi => hm i (by omega)
    · rw [Nat.add_assoc, hm (size + i) (by omega), Nat.add_assoc]

theorem Laid.congr {es : List (List UInt8)} (h : Laid size m p es)
    (hm : ∀ x, p ≤ x → x < p + es.length * size → m' x = m x) : Laid size m' p es :=
  h.copy fun i hi => hm (p + i) (by omega) (by omega)

theorem Laid.get {es : List (List UInt8)} (h : Laid size m p es) {j : ℕ} (hj : j < es.length) :
    load m (p + j * size) size = es[j] := by
  induction es generalizing p j with
  | nil => simp at hj
  | cons e es ih =>
    cases j with
    | zero => simpa using h.1
    | succ j =>
      have hstep : p + (j + 1) * size = p + size + j * size := by
        rw [Nat.succ_mul]
        omega
      rw [hstep, List.getElem_cons_succ]
      exact ih h.2 (by simpa using hj)

theorem Laid.head {e : List UInt8} {es : List (List UInt8)} (h : Laid size m p (e :: es)) :
    load m p size = e := h.1

end ElementArray

import LibSystemCall.ByteMemory
import Mathlib.Tactic.SplitIfs

/-! # Layout of C structures

Fields are placed in order, each at the next multiple of its alignment; the size is
rounded up to the largest alignment. -/
namespace StructLayout

open ByteMemory

def alignUp (a n : ℕ) : ℕ := (n + a - 1) / a * a

theorem le_alignUp {a : ℕ} (ha : 0 < a) (n : ℕ) : n ≤ alignUp a n := by
  have hd := Nat.mod_add_div (n + a - 1) a
  have hm := Nat.mod_lt (n + a - 1) ha
  rw [alignUp, Nat.mul_comm]
  omega

theorem alignUp_lt {a : ℕ} (ha : 0 < a) (n : ℕ) : alignUp a n < n + a := by
  have := Nat.div_mul_le_self (n + a - 1) a
  unfold alignUp
  omega

/-- A structure type: its fields in declaration order with their sizes and alignments. -/
structure Shape (ι : Type*) where
  fields : List ι
  size : ι → ℕ
  align : ι → ℕ
  complete : ∀ f, f ∈ fields
  align_pos : ∀ f, 0 < align f

variable {ι : Type*} [DecidableEq ι]

def Shape.offsetFrom (S : Shape ι) (f : ι) (o : ℕ) : List ι → ℕ
  | [] => o
  | g :: gs =>
    if g = f then alignUp (S.align g) o
    else S.offsetFrom f (alignUp (S.align g) o + S.size g) gs

/-- `offsetof` -/
def Shape.offset (S : Shape ι) (f : ι) : ℕ := S.offsetFrom f 0 S.fields

def Shape.endFrom (S : Shape ι) (o : ℕ) : List ι → ℕ
  | [] => o
  | g :: gs => S.endFrom (alignUp (S.align g) o + S.size g) gs

/-- `sizeof` -/
def Shape.bytes (S : Shape ι) : ℕ :=
  alignUp ((S.fields.map S.align).foldl max 1) (S.endFrom 0 S.fields)

theorem Shape.le_offsetFrom (S : Shape ι) (f : ι) (o : ℕ) (gs : List ι) :
    o ≤ S.offsetFrom f o gs := by
  induction gs generalizing o with
  | nil => exact Nat.le_refl o
  | cons g gs ih =>
    have hg := le_alignUp (S.align_pos g) o
    simp only [Shape.offsetFrom]
    split_ifs
    · exact hg
    · have := ih (alignUp (S.align g) o + S.size g)
      omega

theorem Shape.offsetFrom_disjoint (S : Shape ι) {f g : ι} (hfg : f ≠ g) :
    ∀ (gs : List ι) (o : ℕ), f ∈ gs → g ∈ gs →
      S.offsetFrom f o gs + S.size f ≤ S.offsetFrom g o gs ∨
      S.offsetFrom g o gs + S.size g ≤ S.offsetFrom f o gs := by
  intro gs
  induction gs with
  | nil => intro o hf; cases hf
  | cons h hs ih =>
    intro o hf hg
    simp only [Shape.offsetFrom]
    by_cases hhf : h = f
    · subst hhf
      rw [if_pos rfl, if_neg hfg]
      exact Or.inl (S.le_offsetFrom g _ hs)
    by_cases hhg : h = g
    · subst hhg
      rw [if_pos rfl, if_neg hhf]
      exact Or.inr (S.le_offsetFrom f _ hs)
    · rw [if_neg hhf, if_neg hhg]
      exact ih _ ((List.mem_cons.mp hf).resolve_left (Ne.symm hhf))
        ((List.mem_cons.mp hg).resolve_left (Ne.symm hhg))

theorem Shape.disjoint (S : Shape ι) {f g : ι} (hfg : f ≠ g) :
    S.offset f + S.size f ≤ S.offset g ∨ S.offset g + S.size g ≤ S.offset f :=
  S.offsetFrom_disjoint hfg S.fields 0 (S.complete f) (S.complete g)

def Shape.read (S : Shape ι) (m : Memory) (t : ℕ) (f : ι) : List UInt8 :=
  load m (t + S.offset f) (S.size f)

end StructLayout

import LibSystemCall.GuardedSystem
import Mathlib.Logic.Function.Basic

/-! # Data that is loaded and stored inside of critical sections

A system decides which threads are inside of their critical section. Beside it there are
shared data and a local copy of each thread. A thread loads the data and stores what a
function makes of its copy, in separate steps and only while it is inside; it takes no copy
with it when it leaves. -/
namespace CriticalSection

open GuardedSystem

structure Shared (σ ι α : Type*) where
  base : σ
  data : α
  loaded : ι → Option α

inductive Event (ε ι α : Type*) where
  | base (e : ε)
  | load (i : ι)
  | store (i : ι) (f : α → α)

variable {σ ε ι α : Type*} (S : System σ ε) (Inside : σ → ι → Prop)

def Enabled (x : Shared σ ι α) : Event ε ι α → Prop
  | .base e => S.Enabled x.base e
  | .load i => Inside x.base i
  | .store i _ => Inside x.base i ∧ (x.loaded i).isSome

instance decidableEnabled [∀ s e, Decidable (S.Enabled s e)] [∀ s i, Decidable (Inside s i)]
    (x : Shared σ ι α) : (e : Event ε ι α) → Decidable (Enabled S Inside x e)
  | .base e => inferInstanceAs (Decidable (S.Enabled x.base e))
  | .load i => inferInstanceAs (Decidable (Inside x.base i))
  | .store i _ => inferInstanceAs (Decidable (Inside x.base i ∧ (x.loaded i).isSome))

section Next

variable [DecidableEq ι] [∀ s i, Decidable (Inside s i)]

def next (x : Shared σ ι α) : Event ε ι α → Shared σ ι α
  | .base e =>
    { x with
      base := S.next x.base e
      loaded := fun i => if Inside (S.next x.base e) i then x.loaded i else none }
  | .load i => { x with loaded := Function.update x.loaded i (some x.data) }
  | .store i f =>
    match x.loaded i with
    | none => x
    | some v => { x with data := f v, loaded := Function.update x.loaded i (some (f v)) }

/-- The shared data start at `d`. -/
def sharedSystem (d : α) : System (Shared σ ι α) (Event ε ι α) where
  Initial x := S.Initial x.base ∧ x.data = d ∧ ∀ i, x.loaded i = none
  Enabled := Enabled S Inside
  next := next S Inside

instance [∀ s e, Decidable (S.Enabled s e)] (d : α) (x : Shared σ ι α) (e : Event ε ι α) :
    Decidable ((sharedSystem S Inside d).Enabled x e) := decidableEnabled S Inside x e

end Next

def updates : List (Event ε ι α) → List (α → α)
  | [] => []
  | .store _ f :: es => f :: updates es
  | .base _ :: es | .load _ :: es => updates es

theorem updates_cons (e : Event ε ι α) (es : List (Event ε ι α)) :
    updates (e :: es) = updates [e] ++ updates es := by
  cases e <;> rfl

def Coherent (x : Shared σ ι α) : Prop :=
  ∀ i, ∀ v ∈ x.loaded i, Inside x.base i ∧ v = x.data

variable {S Inside} [DecidableEq ι] [∀ s i, Decidable (Inside s i)]

theorem coherent_next {x : Shared σ ι α} {e : Event ε ι α} (h : Coherent Inside x)
    (hex : ∀ i j, Inside x.base i → Inside x.base j → i = j) (he : Enabled S Inside x e) :
    Coherent Inside (next S Inside x e) := by
  intro j v hv
  cases e with
  | base e =>
    simp only [next] at hv ⊢
    split at hv
    · next hin => exact ⟨hin, (h j v hv).2⟩
    · cases hv
  | load i =>
    simp only [next, Function.update_apply] at hv ⊢
    split at hv
    · next hj =>
      subst hj
      exact ⟨he, (Option.some.inj hv).symm⟩
    · exact h j v hv
  | store i f =>
    obtain ⟨hin, hsome⟩ := he
    obtain ⟨w, hw⟩ := Option.isSome_iff_exists.mp hsome
    simp only [next, hw, Function.update_apply] at hv ⊢
    split at hv
    · next hj =>
      subst hj
      exact ⟨hin, (Option.some.inj hv).symm⟩
    · next hj => exact absurd (hex j i (h j v hv).1 hin) hj

theorem data_next {x : Shared σ ι α} {e : Event ε ι α} (h : Coherent Inside x)
    (he : Enabled S Inside x e) :
    (next S Inside x e).data = (updates [e]).foldl (fun d f => f d) x.data := by
  cases e with
  | base e => rfl
  | load i => rfl
  | store i f =>
    obtain ⟨w, hw⟩ := Option.isSome_iff_exists.mp he.2
    simp only [next, hw, updates, List.foldl_cons, List.foldl_nil]
    rw [(h i w hw).2]

/-- If at most one thread is inside whenever `I` holds, and every step of the system keeps
`I`, then no store is lost: the data are what the stored functions make of the first value,
one after the other. -/
theorem data_fold {I : σ → Prop} {d : α} (hI : Inductive S anyStep I)
    (hex : ∀ s, I s → ∀ i j, Inside s i → Inside s j → i = j) {es : List (Event ε ι α)} :
    ∀ {x : Shared σ ι α}, I x.base → Coherent Inside x →
      ValidTrace (sharedSystem S Inside d) anyStep x es →
      (runTrace (sharedSystem S Inside d) x es).data =
        (updates es).foldl (fun d f => f d) x.data := by
  induction es with
  | nil => intro x _ _ _; rfl
  | cons e es ih =>
    rintro x hx hc ⟨⟨he, _⟩, hes⟩
    have hbase : I (next S Inside x e).base := by
      cases e with
      | base e => exact hI.step _ _ hx he trivial
      | load i => exact hx
      | store i f =>
        obtain ⟨w, hw⟩ := Option.isSome_iff_exists.mp he.2
        simpa only [next, hw] using hx
    rw [updates_cons, List.foldl_append, ← data_next hc he]
    exact ih hbase (coherent_next hc (hex _ hx) he) hes

end CriticalSection

import Mathlib.Logic.Basic

/-! # Event systems with guarded runs

A system is a set of initial states, an enabling condition and a deterministic
successor for each event; every choice of a scheduler or an environment is an event.
A guard restricts a run further: `ReachableUnder S G` are the states reached when each
step also satisfies `G` in the state before it. -/
namespace GuardedSystem

universe u v

structure System (σ : Type u) (ε : Type v) where
  Initial : σ → Prop
  Enabled : σ → ε → Prop
  next : σ → ε → σ

variable {σ : Type u} {ε : Type v}

inductive Execution (S : System σ ε) (G : σ → ε → Prop) : σ → σ → Prop where
  | refl (s) : Execution S G s s
  | tail {s u e} : Execution S G s u → S.Enabled u e → G u e → Execution S G s (S.next u e)

def ReachableUnder (S : System σ ε) (G : σ → ε → Prop) (s : σ) : Prop :=
  ∃ s₀, S.Initial s₀ ∧ Execution S G s₀ s

def anyStep : σ → ε → Prop := fun _ _ => True

def Reachable (S : System σ ε) (s : σ) : Prop := ReachableUnder S anyStep s

theorem Execution.weaken {S : System σ ε} {G H : σ → ε → Prop} {s t : σ}
    (hG : ∀ u e, S.Enabled u e → G u e → H u e) (h : Execution S G s t) :
    Execution S H s t := by
  induction h with
  | refl => exact .refl _
  | tail _ he hg ih => exact .tail ih he (hG _ _ he hg)

theorem ReachableUnder.weaken {S : System σ ε} {G H : σ → ε → Prop} {s : σ}
    (hG : ∀ u e, S.Enabled u e → G u e → H u e) (h : ReachableUnder S G s) :
    ReachableUnder S H s := by
  obtain ⟨s₀, h₀, hr⟩ := h
  exact ⟨s₀, h₀, hr.weaken hG⟩

theorem ReachableUnder.reachable {S : System σ ε} {G : σ → ε → Prop} {s : σ}
    (h : ReachableUnder S G s) : Reachable S s := h.weaken fun _ _ _ _ => trivial

theorem ReachableUnder.initial {S : System σ ε} {G : σ → ε → Prop} {s : σ} (h : S.Initial s) :
    ReachableUnder S G s := ⟨s, h, .refl s⟩

theorem ReachableUnder.step {S : System σ ε} {G : σ → ε → Prop} {s : σ} {e : ε}
    (h : ReachableUnder S G s) (he : S.Enabled s e) (hg : G s e) :
    ReachableUnder S G (S.next s e) := by
  obtain ⟨s₀, h₀, hr⟩ := h
  exact ⟨s₀, h₀, hr.tail he hg⟩

theorem Execution.trans {S : System σ ε} {G : σ → ε → Prop} {s t u : σ}
    (h : Execution S G s t) (k : Execution S G t u) : Execution S G s u := by
  induction k with
  | refl => exact h
  | tail _ he hg ih => exact .tail ih he hg

theorem ReachableUnder.trans {S : System σ ε} {G : σ → ε → Prop} {s t : σ}
    (h : ReachableUnder S G s) (k : Execution S G s t) : ReachableUnder S G t := by
  obtain ⟨s₀, h₀, hr⟩ := h
  exact ⟨s₀, h₀, hr.trans k⟩

structure Inductive (S : System σ ε) (G : σ → ε → Prop) (I : σ → Prop) : Prop where
  initial : ∀ s, S.Initial s → I s
  step : ∀ s e, I s → S.Enabled s e → G s e → I (S.next s e)

theorem Inductive.reachable {S : System σ ε} {G : σ → ε → Prop} {I : σ → Prop}
    (h : Inductive S G I) {s : σ} (hs : ReachableUnder S G s) : I s := by
  obtain ⟨s₀, h₀, hr⟩ := hs
  induction hr with
  | refl => exact h.initial _ h₀
  | tail _ he hg ih => exact h.step _ _ ih he hg

def runTrace (S : System σ ε) (s : σ) : List ε → σ
  | [] => s
  | e :: es => runTrace S (S.next s e) es

def ValidTrace (S : System σ ε) (G : σ → ε → Prop) (s : σ) : List ε → Prop
  | [] => True
  | e :: es => (S.Enabled s e ∧ G s e) ∧ ValidTrace S G (S.next s e) es

instance decidableValidTrace (S : System σ ε) (G : σ → ε → Prop)
    [∀ s e, Decidable (S.Enabled s e)] [∀ s e, Decidable (G s e)] (s : σ) (es : List ε) :
    Decidable (ValidTrace S G s es) :=
  match es with
  | [] => isTrue trivial
  | e :: es =>
    have := decidableValidTrace S G (S.next s e) es
    inferInstanceAs (Decidable ((S.Enabled s e ∧ G s e) ∧ ValidTrace S G (S.next s e) es))

instance (s : σ) (e : ε) : Decidable (anyStep s e) := isTrue trivial

theorem validTrace_congr {S : System σ ε} {G H : σ → ε → Prop}
    (hGH : ∀ s e, S.Enabled s e → (G s e ↔ H s e)) (s : σ) (es : List ε) :
    ValidTrace S G s es ↔ ValidTrace S H s es := by
  induction es generalizing s with
  | nil => exact Iff.rfl
  | cons e es ih => exact and_congr (and_congr_right (hGH s e)) (ih _)

theorem Execution.trace {S : System σ ε} {G : σ → ε → Prop} {s₀ s : σ}
    (hs : Execution S G s₀ s) : ∀ es, ValidTrace S G s es → Execution S G s₀ (runTrace S s es)
  | [], _ => hs
  | e :: es, h => (hs.tail (e := e) h.1.1 h.1.2).trace es h.2

theorem valid_trace_reachable {S : System σ ε} {G : σ → ε → Prop} {es : List ε} {s : σ}
    (hs : S.Initial s) (h : ValidTrace S G s es) : ReachableUnder S G (runTrace S s es) :=
  ⟨s, hs, (Execution.refl s).trace es h⟩

end GuardedSystem

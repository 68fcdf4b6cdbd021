import LibSystemCall.GuardedSystem

/-! # Forward simulation between event systems

Each step of the concrete system is matched by a list of events of the abstract one, read off
the step itself, so a whole run is matched by the concatenation. -/
namespace EventSimulation

open GuardedSystem

variable {σ ε α β : Type*}

/-- What an observer records of a run: `acts` reads it off each step. -/
def observed (S : System σ ε) (acts : σ → ε → List β) (s : σ) : List ε → List β
  | [] => []
  | e :: es => acts s e ++ observed S acts (S.next s e) es

theorem runTrace_append (A : System α β) (a : α) (es fs : List β) :
    runTrace A a (es ++ fs) = runTrace A (runTrace A a es) fs := by
  induction es generalizing a with
  | nil => rfl
  | cons e es ih => exact ih _

theorem validTrace_append {A : System α β} {G : α → β → Prop} {a : α} {es fs : List β} :
    ValidTrace A G a (es ++ fs) ↔ ValidTrace A G a es ∧ ValidTrace A G (runTrace A a es) fs := by
  induction es generalizing a with
  | nil => simp [ValidTrace, runTrace]
  | cons e es ih => simp only [List.cons_append, ValidTrace, runTrace, ih, and_assoc]

/-- `R` relates the initial states, and each concrete step runs its abstract events between
related states. -/
structure Simulation (S : System σ ε) (A : System α β) (acts : σ → ε → List β)
    (R : σ → α → Prop) : Prop where
  initial : ∀ s, S.Initial s → ∃ a, A.Initial a ∧ R s a
  step : ∀ s e a, R s a → S.Enabled s e →
    ValidTrace A anyStep a (acts s e) ∧ R (S.next s e) (runTrace A a (acts s e))

theorem Simulation.run {S : System σ ε} {A : System α β} {acts : σ → ε → List β}
    {R : σ → α → Prop} (h : Simulation S A acts R) {G : σ → ε → Prop} {es : List ε} :
    ∀ {s : σ} {a : α}, R s a → ValidTrace S G s es →
      ValidTrace A anyStep a (observed S acts s es) ∧
        R (runTrace S s es) (runTrace A a (observed S acts s es)) := by
  induction es with
  | nil => intro s a hr _; exact ⟨trivial, hr⟩
  | cons e es ih =>
    rintro s a hr ⟨⟨he, _⟩, hes⟩
    obtain ⟨hv, hr'⟩ := h.step s e a hr he
    obtain ⟨hvs, hrs⟩ := ih hr' hes
    simp only [observed, validTrace_append, runTrace_append]
    exact ⟨⟨hv, hvs⟩, hrs⟩

end EventSimulation

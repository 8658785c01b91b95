import Mathlib.Order.Basic

/-!
# Runs of a labelled step relation

`Run step init es s`: from `init` the labels `es`, oldest first, lead to `s`.
An invariant is proved once for `init` and once for a step.
-/
namespace Run

variable {σ ε : Type}

/-- Finite runs, extended at their end. -/
inductive From (step : σ → ε → σ → Prop) (init : σ) : List ε → σ → Prop
  | nil : From step init [] init
  | snoc {es : List ε} {s s' : σ} (e : ε) (before : From step init es s) (last : step s e s') :
      From step init (es ++ [e]) s'

variable {step : σ → ε → σ → Prop} {init : σ}

/-- An invariant of states and histories that holds at the start and that every
step of the run keeps holds at its end. -/
theorem From.invariant (I : List ε → σ → Prop) (start : I [] init)
    (keeps : ∀ es s e s', From step init es s → I es s → step s e s' → I (es ++ [e]) s')
    {es : List ε} {s : σ} (run : From step init es s) : I es s := by
  induction run with
  | nil => exact start
  | snoc e before last ih => exact keeps _ _ e _ before ih last

theorem From.single {e : ε} {s : σ} (last : step init e s) : From step init [e] s :=
  .snoc e .nil last

/-- A run of a relation is a run of every weaker one. -/
theorem From.mono {step' : σ → ε → σ → Prop} (weaker : ∀ s e s', step s e s' → step' s e s')
    {es : List ε} {s : σ} (run : From step init es s) : From step' init es s := by
  induction run with
  | nil => exact .nil
  | snoc e _ last ih => exact .snoc e ih (weaker _ _ _ last)

theorem From.trans {es fs : List ε} {s t : σ} (first : From step init es s)
    (second : From step s fs t) : From step init (es ++ fs) t := by
  induction second with
  | nil => simpa using first
  | snoc e _ last ih =>
    rw [← List.append_assoc]
    exact .snoc e ih last

end Run

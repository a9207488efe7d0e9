import Mathlib.Order.Basic
import NoxDB.Library.Runs

/-! # Runs that use up a potential

A number that every step lowers bounds the length of every run, so a run can be
carried on only to a state from which no step leads on.
-/

namespace Library.Runs

variable {State Label : Type} {step : State → Label → Option State}
  {condition : State → Label → Prop} {first last : State}

/-- `last` is reached from `first` by a number of steps that all meet `condition`. -/
inductive Steps (step : State → Label → Option State) (condition : State → Label → Prop)
    (first : State) : Nat → State → Prop where
  | refl : Steps step condition first 0 first
  | tail {length : Nat} {middle last : State} {label : Label} :
      Steps step condition first length middle → condition middle label →
      step middle label = some last → Steps step condition first (length + 1) last

/-- No step that meets `condition` leads on. -/
def Final (step : State → Label → Option State) (condition : State → Label → Prop)
    (state : State) : Prop :=
  ∀ label, condition state label → step state label = none

namespace Steps

variable {length : Nat}

/-- A potential that every step lowers pays for the steps. -/
theorem length_add_le (steps : Steps step condition first length last) (known : State → Prop)
    (potential : State → Nat) (initially : known first)
    (preserved : ∀ {middle last label}, known middle → condition middle label →
      step middle label = some last → known last)
    (drops : ∀ {middle last label}, known middle → condition middle label →
      step middle label = some last → potential last < potential middle) :
    length + potential last ≤ potential first := by
  have both : known last ∧ length + potential last ≤ potential first := by
    induction steps with
    | refl => exact ⟨initially, by omega⟩
    | tail _ met stepped inductionHypothesis =>
      obtain ⟨knows, paid⟩ := inductionHypothesis
      have lower := drops knows met stepped
      exact ⟨preserved knows met stepped, by omega⟩
  exact both.2

end Steps

/-- With a potential a run can be carried on to its end. -/
theorem exists_final (known : State → Prop) (potential : State → Nat) (initially : known first)
    (preserved : ∀ {middle last label}, known middle → condition middle label →
      step middle label = some last → known last)
    (drops : ∀ {middle last label}, known middle → condition middle label →
      step middle label = some last → potential last < potential middle) :
    ∃ last, Run step condition first last ∧ Final step condition last := by
  induction level : potential first using Nat.strongRecOn generalizing first with
  | _ level' inductionHypothesis =>
    by_cases final : Final step condition first
    · exact ⟨first, .refl, final⟩
    · simp only [Final, not_forall] at final
      obtain ⟨label, met, leads⟩ := final
      obtain ⟨next, stepped⟩ := Option.ne_none_iff_exists'.mp leads
      have lower := drops initially met stepped
      obtain ⟨last, run, ends⟩ := inductionHypothesis (potential next) (level ▸ lower)
        (preserved initially met stepped) rfl
      exact ⟨last, .trans (.tail .refl met stepped) run, ends⟩

end Library.Runs

import Mathlib.Logic.Basic

/-! # Runs of a labelled step function

A partial step function with labels, runs in which every step meets a condition on
the state before it and its label, and the two rules used on them: an invariant of
every step holds at the end of a run, and a run of a stronger condition is a run of
a weaker one.
-/

namespace Library.Runs

variable {State Label : Type} {step : State → Label → Option State}
  {condition weaker : State → Label → Prop} {first middle last : State}

/-- `last` is reached from `first` by steps that all meet `condition`. -/
inductive Run (step : State → Label → Option State) (condition : State → Label → Prop)
    (first : State) : State → Prop where
  | refl : Run step condition first first
  | tail {middle last : State} {label : Label} :
      Run step condition first middle → condition middle label → step middle label = some last →
      Run step condition first last

namespace Run

/-- An invariant of the steps is an invariant of the runs. -/
theorem invariant (run : Run step condition first last) (holds : State → Prop)
    (initially : holds first)
    (preserved : ∀ {middle last label}, holds middle → condition middle label →
      step middle label = some last → holds last) : holds last := by
  induction run with
  | refl => exact initially
  | tail _ met stepped inductionHypothesis => exact preserved inductionHypothesis met stepped

/-- An invariant whose steps rest on what is known of every state on the way. -/
theorem invariant_along (run : Run step condition first last) (known holds : State → Prop)
    (always : ∀ {state}, Run step condition first state → known state) (initially : holds first)
    (preserved : ∀ {middle last label}, known middle → holds middle → condition middle label →
      step middle label = some last → holds last) : holds last := by
  induction run with
  | refl => exact initially
  | tail before met stepped inductionHypothesis =>
    exact preserved (always before) inductionHypothesis met stepped

theorem weaken (run : Run step condition first last)
    (implies : ∀ state label, condition state label → weaker state label) :
    Run step weaker first last := by
  induction run with
  | refl => exact .refl
  | tail _ met stepped inductionHypothesis =>
    exact .tail inductionHypothesis (implies _ _ met) stepped

theorem trans (left : Run step condition first middle) (right : Run step condition middle last) :
    Run step condition first last := by
  induction right with
  | refl => exact left
  | tail _ met stepped inductionHypothesis => exact .tail inductionHypothesis met stepped

/-- A condition that an invariant supplies can be added to the steps of a run. -/
theorem strengthen (run : Run step condition first last) (holds : State → Prop)
    (weaker : State → Label → Prop) (initially : holds first)
    (preserved : ∀ {middle last label}, holds middle → condition middle label →
      step middle label = some last → holds last)
    (supplies : ∀ {state label next}, holds state → condition state label →
      step state label = some next → weaker state label) :
    Run step (fun state label => condition state label ∧ weaker state label) first last := by
  have both : holds last ∧
      Run step (fun state label => condition state label ∧ weaker state label) first last := by
    induction run with
    | refl => exact ⟨initially, .refl⟩
    | tail _ met stepped inductionHypothesis =>
      exact ⟨preserved inductionHypothesis.1 met stepped,
        .tail inductionHypothesis.2 ⟨met, supplies inductionHypothesis.1 met stepped⟩ stepped⟩
  exact both.2

/-- What holds at the end of a run and can only have held before holds all along. -/
theorem backward (run : Run step condition first last) (holds : State → Prop)
    (finally_ : holds last)
    (inherited : ∀ {middle last label}, step middle label = some last → holds last →
      holds middle) :
    Run step (fun state label => condition state label ∧
      ∀ next, step state label = some next → holds next) first last := by
  induction run with
  | refl => exact .refl
  | tail _ met stepped inductionHypothesis =>
    refine .tail (inductionHypothesis (inherited stepped finally_)) ⟨met, fun next again => ?_⟩ stepped
    obtain rfl := Option.some.inj (stepped.symm.trans again)
    exact finally_

/-! ## Concrete runs -/

/-- Take the steps of a list of labels, each of which has to pass a test. -/
def follow (test : State → Label → Bool) (step : State → Label → Option State) :
    State → List Label → Option State
  | state, [] => some state
  | state, label :: labels =>
    if test state label then (step state label).bind fun next => follow test step next labels
    else none

theorem of_follow_among {test : State → Label → Bool} {labels : List Label}
    (sufficient : ∀ state, ∀ label ∈ labels, test state label = true → condition state label)
    (followed : follow test step first labels = some last) : Run step condition first last := by
  induction labels generalizing first with
  | nil =>
    obtain rfl : first = last := by simpa [follow] using followed
    exact .refl
  | cons label labels inductionHypothesis =>
    rw [follow] at followed
    split at followed
    · next passed =>
      obtain ⟨next, stepped, rest⟩ := Option.bind_eq_some_iff.mp followed
      have met := sufficient first label List.mem_cons_self passed
      refine trans (.tail .refl met stepped) (inductionHypothesis (fun state other among => ?_) rest)
      exact sufficient state other (List.mem_cons_of_mem _ among)
    · contradiction

theorem of_follow {test : State → Label → Bool} {labels : List Label}
    (sufficient : ∀ state label, test state label = true → condition state label)
    (followed : follow test step first labels = some last) : Run step condition first last :=
  of_follow_among (fun state label _ => sufficient state label) followed

/-- What evaluating a list of labels shows of the state it ends in holds of a state at the end
of a run, when those of the labels that pass a test meet the condition. -/
theorem exists_of_follow_among (first : State) (test : State → Label → Bool) (labels : List Label)
    (sufficient : ∀ state, ∀ label ∈ labels, test state label = true → condition state label)
    (shows : State → Prop) [DecidablePred shows]
    (followed : (follow test step first labels).any (fun state => shows state) = true) :
    ∃ last, Run step condition first last ∧ shows last := by
  cases reached : follow test step first labels with
  | none => simp [reached] at followed
  | some last => exact ⟨last, .of_follow_among sufficient reached, by simpa [reached] using followed⟩

theorem exists_of_follow (first : State) (test : State → Label → Bool) (labels : List Label)
    (sufficient : ∀ state label, test state label = true → condition state label)
    (shows : State → Prop) [DecidablePred shows]
    (followed : (follow test step first labels).any (fun state => shows state) = true) :
    ∃ last, Run step condition first last ∧ shows last :=
  exists_of_follow_among first test labels (fun state label _ => sufficient state label) shows followed

end Run

/-! ## Recorded runs -/

section Recording

variable {Record : Type} {note : State → Label → Record → Record}

/-- The step function with a record that is kept beside the state and that no step reads. -/
def recording (step : State → Label → Option State) (note : State → Label → Record → Record)
    (both : State × Record) (label : Label) : Option (State × Record) :=
  (step both.1 label).map fun next => (next, note both.1 label both.2)

theorem recording_eq_some {before after : State × Record} {label : Label}
    (stepped : recording step note before label = some after) :
    step before.1 label = some after.1 ∧ after.2 = note before.1 label before.2 := by
  obtain ⟨next, taken, same⟩ := Option.map_eq_some_iff.mp stepped
  subst same
  exact ⟨taken, rfl⟩

/-- Every run has its record. -/
theorem Run.record (run : Run step condition first last) (note : State → Label → Record → Record)
    (start : Record) :
    ∃ record, Run (recording step note) (fun both label => condition both.1 label)
      (first, start) (last, record) := by
  induction run with
  | refl => exact ⟨start, .refl⟩
  | @tail middle last label _ met stepped inductionHypothesis =>
    obtain ⟨record, recorded⟩ := inductionHypothesis
    refine ⟨note middle label record, .tail recorded met ?_⟩
    rw [recording, stepped]
    rfl

/-- A recorded run is a run. -/
theorem Run.forget {before after : State × Record}
    (run : Run (recording step note) (fun both label => condition both.1 label) before after) :
    Run step condition before.1 after.1 := by
  induction run with
  | refl => exact .refl
  | tail _ met stepped inductionHypothesis =>
    exact .tail inductionHypothesis met (recording_eq_some stepped).1

end Recording

/-! ## Runs that keep to a condition -/

section Conforming

variable {met : Prop}

/-- The record of whether every step so far met `condition`. -/
def conforming (condition : State → Label → Prop) (state : State) (label : Label) (sofar : Prop) :
    Prop :=
  sofar ∧ condition state label

/-- A property that a step keeps exactly when it meets the condition holds at the end of a run
exactly when every step of it did.  `good` is what is known of the last state and can only have
held before. -/
theorem Run.holds_iff_conforming (domain : State → Label → Prop)
    (run : Run (recording step (conforming condition)) (fun both label => domain both.1 label)
      (first, True) (last, met))
    (known good holds : State → Prop) (initially : known first) (start : holds first)
    (preserved : ∀ {state next label}, known state → domain state label →
      step state label = some next → known next)
    (inherited : ∀ {state next label}, step state label = some next → good next → good state)
    (sharp : ∀ {state next label}, known state → domain state label → good next →
      step state label = some next → (holds next ↔ holds state ∧ condition state label)) :
    known last ∧ (good last → (holds last ↔ met)) := by
  have both : known (last, met).1 ∧ (good (last, met).1 → (holds (last, met).1 ↔ (last, met).2)) := by
    apply run.invariant fun both => known both.1 ∧ (good both.1 → (holds both.1 ↔ both.2))
    · exact ⟨initially, fun _ => iff_of_true start trivial⟩
    · rintro ⟨state, sofar⟩ ⟨next, after⟩ label ⟨knows, same⟩ met stepped
      obtain ⟨taken, rfl⟩ := recording_eq_some stepped
      refine ⟨preserved knows met taken, fun fine => ?_⟩
      rw [sharp knows met fine taken, same (inherited taken fine)]
      rfl
  exact both

end Conforming

end Library.Runs

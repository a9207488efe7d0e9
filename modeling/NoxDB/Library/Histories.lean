import Mathlib.Logic.Basic

/-! # Histories, newest event first

`Past holds history` says that every event of a history stands in the relation `holds`
to what came before it.  A history grows at its head, so it is enough to look at the
new events.
-/

namespace Library.Histories

variable {Event : Type} {holds weaker : Event → List Event → Prop} {event : Event}
  {events history : List Event}

def Past (holds : Event → List Event → Prop) (history : List Event) : Prop :=
  ∀ newer event older, history = newer ++ event :: older → holds event older

namespace Past

theorem nil : Past holds [] := fun newer event older split => by simp at split

theorem cons (now : holds event history) (before : Past holds history) :
    Past holds (event :: history) := by
  intro newer other older split
  rcases List.cons_eq_append_iff.mp split with ⟨rfl, same⟩ | ⟨rest, rfl, tail⟩
  · obtain ⟨rfl, rfl⟩ := List.cons.inj same
    exact now
  · exact before rest other older tail

/-- Events that stand in the relation whatever came before. -/
theorem append (always : ∀ event ∈ events, ∀ older, holds event older)
    (before : Past holds history) : Past holds (events ++ history) := by
  induction events with
  | nil => exact before
  | cons event events inductionHypothesis =>
    exact cons (always event List.mem_cons_self _)
      (inductionHypothesis fun other among => always other (List.mem_cons_of_mem _ among))

theorem imp (past : Past holds history)
    (implies : ∀ event ∈ history, ∀ older, holds event older → weaker event older) :
    Past weaker history := by
  intro newer event older split
  exact implies event (by rw [split]; simp) older (past newer event older split)

end Past

end Library.Histories

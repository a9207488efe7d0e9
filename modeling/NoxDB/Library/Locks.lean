import Mathlib.Logic.Function.Basic

/-! # Lock tables

A table that maps each lock to its holder, beside what each thread says it holds.
`Consistent` says the two agree, which makes a lock exclusive: a lock has one entry
in the table.  The rules are for taking a free lock, giving one up, and a thread
that changes its own state without doing either.
-/

namespace Library.Locks

open Function (update)

variable {Lock Thread : Type} [DecidableEq Lock] [DecidableEq Thread]
  {table : Lock → Option Thread} {held : Thread → Option Lock} {lock : Lock} {thread : Thread}

def Consistent (table : Lock → Option Thread) (held : Thread → Option Lock) : Prop :=
  ∀ lock thread, table lock = some thread ↔ held thread = some lock

namespace Consistent

omit [DecidableEq Lock] [DecidableEq Thread] in
/-- Two threads that hold the same lock are the same thread. -/
theorem exclusive (consistent : Consistent table held) {other : Thread}
    (first : held thread = some lock) (second : held other = some lock) : thread = other := by
  rw [← consistent] at first second
  exact Option.some.inj (first.symm.trans second)

omit [DecidableEq Lock] [DecidableEq Thread] in
theorem not_held_of_free (consistent : Consistent table held) (free : table lock = none)
    (thread : Thread) : held thread ≠ some lock := by
  intro holds
  rw [← consistent, free] at holds
  contradiction

theorem acquire (consistent : Consistent table held) (free : table lock = none)
    (empty : held thread = none) :
    Consistent (update table lock (some thread)) (update held thread (some lock)) := by
  intro other holder
  have current := consistent other holder
  have nobody := consistent.not_held_of_free free holder
  by_cases sameLock : other = lock <;> by_cases sameThread : holder = thread
  · simp [sameLock, sameThread]
  · subst sameLock
    simpa [sameThread, Ne.symm sameThread] using nobody
  · subst sameThread
    simpa [sameLock, Ne.symm sameLock, empty] using current
  · simpa [sameLock, sameThread] using current

theorem release (consistent : Consistent table held) (holds : held thread = some lock) :
    Consistent (update table lock none) (update held thread none) := by
  intro other holder
  have current := consistent other holder
  by_cases sameLock : other = lock <;> by_cases sameThread : holder = thread
  · simp [sameLock, sameThread]
  · subst sameLock
    have excluded : held holder ≠ some other := fun second =>
      sameThread (consistent.exclusive second holds)
    simpa [sameThread] using excluded
  · subst sameThread
    have excluded : held holder ≠ some other := fun second =>
      sameLock (Option.some.inj (second.symm.trans holds))
    simpa [sameLock, current] using excluded
  · simpa [sameLock, sameThread] using current

omit [DecidableEq Lock] in
/-- A thread that moves on without taking a lock or giving one up. -/
theorem quiet {Place : Type} {holds : Place → Option Lock} {places : Thread → Place} {place : Place}
    (consistent : Consistent table fun thread => holds (places thread))
    (same : holds place = holds (places thread)) :
    Consistent table fun other => holds (update places thread place other) := by
  intro lock other
  rw [consistent]
  by_cases mine : other = thread
  · subst mine
    simp only [Function.update_self, same]
  · simp only [Function.update_of_ne mine]

end Consistent

end Library.Locks

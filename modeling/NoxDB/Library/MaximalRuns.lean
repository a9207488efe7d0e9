import Mathlib.Data.Set.Card
import NoxDB.Library.Segments

/-! # Maximal runs

A maximal run of a set of numbers is an interval inside it that can be extended at neither end.
The segments of a separated list are exactly the maximal runs of the set it covers
(`Separated.maximalRun_iff`), so its length counts them (`Separated.runCount_eq`).
-/

namespace Library.Segments

/-- A nonempty interval inside the set whose two neighbours are outside. -/
structure MaximalRun (set : Nat → Prop) (run : Segment) : Prop where
  nonempty : 0 < run.size
  inside : ∀ x, run.Contains x → set x
  before : ∀ x, x + 1 = run.offset → ¬ set x
  after : ¬ set run.stop

/-- How many maximal runs a set has. -/
noncomputable def runCount (set : Nat → Prop) : Nat := {run | MaximalRun set run}.ncard

theorem runCount_congr {first second : Nat → Prop} (same : ∀ x, first x ↔ second x) :
    runCount first = runCount second := by
  rw [funext fun x => propext (same x)]

/-- Two maximal runs that share a number are the same run. -/
theorem MaximalRun.unique {set : Nat → Prop} {first second : Segment} {x : Nat}
    (firstRun : MaximalRun set first) (secondRun : MaximalRun set second)
    (inFirst : first.Contains x) (inSecond : second.Contains x) : first = second := by
  obtain ⟨firstLow, firstHigh⟩ := inFirst
  obtain ⟨secondLow, secondHigh⟩ := inSecond
  -- An offset strictly inside the other run would have a neighbour in the set.
  have offsets : first.offset = second.offset := by
    rcases lt_trichotomy first.offset second.offset with earlier | equal | later
    · exact absurd (firstRun.inside _ ⟨by omega, by omega⟩)
        (secondRun.before (second.offset - 1) (by omega))
    · exact equal
    · exact absurd (secondRun.inside _ ⟨by omega, by omega⟩)
        (firstRun.before (first.offset - 1) (by omega))
  have stops : first.stop = second.stop := by
    rcases lt_trichotomy first.stop second.stop with shorter | equal | longer
    · exact absurd (secondRun.inside _ ⟨by omega, shorter⟩) firstRun.after
    · exact equal
    · exact absurd (firstRun.inside _ ⟨by omega, longer⟩) secondRun.after
  obtain ⟨firstOffset, firstSize⟩ := first
  obtain ⟨secondOffset, secondSize⟩ := second
  simp only [Segment.stop, Segment.mk.injEq] at offsets stops ⊢
  omega

namespace Separated

variable {segments : List Segment}

/-- Two segments of the list are the same or have a gap between them. -/
theorem apart (separated : Separated segments) {first second : Segment}
    (firstMem : first ∈ segments) (secondMem : second ∈ segments) :
    first = second ∨ first.stop < second.offset ∨ second.stop < first.offset := by
  obtain ⟨i, iBound, rfl⟩ := List.getElem_of_mem firstMem
  obtain ⟨j, jBound, rfl⟩ := List.getElem_of_mem secondMem
  have gaps := List.pairwise_iff_getElem.mp separated.gaps
  rcases lt_trichotomy i j with earlier | rfl | later
  · exact .inr (.inl (gaps i j iBound jBound earlier))
  · exact .inl rfl
  · exact .inr (.inr (gaps j i jBound iBound later))

theorem maximalRun_of_mem (separated : Separated segments) {segment : Segment}
    (member : segment ∈ segments) : MaximalRun (Covers segments) segment where
  nonempty := separated.nonempty segment member
  inside := fun x inside => ⟨segment, member, inside⟩
  before := by
    rintro x next ⟨other, otherMem, low, high⟩
    have size := separated.nonempty segment member
    rcases separated.apart member otherMem with rfl | gap | gap
    · omega
    · simp only [Segment.stop] at gap
      omega
    · omega
  after := by
    rintro ⟨other, otherMem, low, high⟩
    have size := separated.nonempty segment member
    rcases separated.apart member otherMem with rfl | gap | gap
    · omega
    · omega
    · simp only [Segment.stop] at gap high low
      omega

/-- The segments of a separated list are the maximal runs of the set it covers. -/
theorem maximalRun_iff (separated : Separated segments) {run : Segment} :
    MaximalRun (Covers segments) run ↔ run ∈ segments := by
  refine ⟨fun maximal => ?_, separated.maximalRun_of_mem⟩
  have start : run.Contains run.offset := by
    have := maximal.nonempty
    exact ⟨le_rfl, by simp only [Segment.stop]; omega⟩
  obtain ⟨segment, member, inside⟩ := maximal.inside _ start
  rwa [maximal.unique (separated.maximalRun_of_mem member) start inside]

theorem nodup (separated : Separated segments) : segments.Nodup := by
  refine separated.gaps.imp fun {first second} gap same => ?_
  subst same
  simp only [Segment.stop] at gap
  omega

theorem runCount_eq (separated : Separated segments) :
    runCount (Covers segments) = segments.length := by
  have runs : {run | MaximalRun (Covers segments) run} = (segments.toFinset : Set Segment) := by
    ext run
    simp [separated.maximalRun_iff]
  rw [runCount, runs, Set.ncard_coe_finset, List.toFinset_card_of_nodup separated.nodup]

end Separated

end Library.Segments

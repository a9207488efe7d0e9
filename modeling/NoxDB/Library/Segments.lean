import Mathlib.Data.List.Pairwise
import Mathlib.Tactic.Linarith

/-! # Canonical lists of segments

A set of natural numbers that is a finite union of half-open intervals has one
presentation as a list of nonempty segments that is sorted and leaves a gap
between any two neighbours.  `Separated` is that normal form, `Covers` the set a
list denotes.  The two facts everything else rests on are `Separated.ext` (the
normal form is determined by the set) and `Separated.total_le` (the sizes add up
to at most the length of the window, with equality only for one full segment).
-/

namespace Library.Segments

/-- The half-open interval `[offset, offset + size)`. -/
structure Segment where
  offset : Nat
  size : Nat
deriving DecidableEq, Repr

namespace Segment

def stop (segment : Segment) : Nat := segment.offset + segment.size

def Contains (segment : Segment) (x : Nat) : Prop :=
  segment.offset ≤ x ∧ x < segment.stop

instance (segment : Segment) (x : Nat) : Decidable (segment.Contains x) :=
  inferInstanceAs (Decidable (_ ∧ _))

end Segment

/-- The numbers that lie in some segment of the list. -/
def Covers (segments : List Segment) (x : Nat) : Prop :=
  ∃ segment ∈ segments, segment.Contains x

instance (segments : List Segment) (x : Nat) : Decidable (Covers segments x) :=
  inferInstanceAs (Decidable (∃ segment ∈ segments, segment.Contains x))

def total (segments : List Segment) : Nat := (segments.map Segment.size).sum

/-- Nonempty segments, sorted, with a gap of at least one between neighbours. -/
structure Separated (segments : List Segment) : Prop where
  nonempty : ∀ segment ∈ segments, 0 < segment.size
  gaps : segments.Pairwise fun left right => left.stop < right.offset

@[simp] theorem covers_nil {x : Nat} : ¬ Covers [] x := by simp [Covers]

@[simp] theorem covers_cons {segment : Segment} {segments : List Segment} {x : Nat} :
    Covers (segment :: segments) x ↔ segment.Contains x ∨ Covers segments x := by
  simp [Covers]

@[simp] theorem covers_append {left right : List Segment} {x : Nat} :
    Covers (left ++ right) x ↔ Covers left x ∨ Covers right x := by
  simp only [Covers, List.mem_append]
  constructor
  · rintro ⟨segment, member | member, inside⟩
    · exact .inl ⟨segment, member, inside⟩
    · exact .inr ⟨segment, member, inside⟩
  · rintro (⟨segment, member, inside⟩ | ⟨segment, member, inside⟩)
    · exact ⟨segment, .inl member, inside⟩
    · exact ⟨segment, .inr member, inside⟩

@[simp] theorem total_nil : total [] = 0 := rfl

@[simp] theorem total_cons {segment : Segment} {segments : List Segment} :
    total (segment :: segments) = segment.size + total segments := by
  simp [total]

@[simp] theorem total_append {left right : List Segment} :
    total (left ++ right) = total left + total right := by
  simp [total]

namespace Separated

theorem nil : Separated [] := ⟨by simp, .nil⟩

theorem singleton {segment : Segment} (positive : 0 < segment.size) : Separated [segment] :=
  ⟨by simpa using positive, by simp⟩

theorem tail {segment : Segment} {segments : List Segment}
    (separated : Separated (segment :: segments)) : Separated segments :=
  ⟨fun other member => separated.nonempty other (List.mem_cons_of_mem _ member),
    (List.pairwise_cons.mp separated.gaps).2⟩

theorem head_pos {segment : Segment} {segments : List Segment}
    (separated : Separated (segment :: segments)) : 0 < segment.size :=
  separated.nonempty segment (by simp)

theorem head_lt {segment other : Segment} {segments : List Segment}
    (separated : Separated (segment :: segments)) (member : other ∈ segments) :
    segment.stop < other.offset :=
  (List.pairwise_cons.mp separated.gaps).1 other member

theorem cons {segment : Segment} {segments : List Segment} (positive : 0 < segment.size)
    (before : ∀ other ∈ segments, segment.stop < other.offset) (separated : Separated segments) :
    Separated (segment :: segments) :=
  ⟨by simpa using ⟨positive, separated.nonempty⟩, List.pairwise_cons.mpr ⟨before, separated.gaps⟩⟩

theorem append {left right : List Segment} (leftSeparated : Separated left)
    (rightSeparated : Separated right)
    (before : ∀ first ∈ left, ∀ second ∈ right, first.stop < second.offset) :
    Separated (left ++ right) :=
  ⟨fun segment member => (List.mem_append.mp member).elim
      (leftSeparated.nonempty segment) (rightSeparated.nonempty segment),
    List.pairwise_append.mpr ⟨leftSeparated.gaps, rightSeparated.gaps, before⟩⟩

theorem appendLeft {left right : List Segment} (separated : Separated (left ++ right)) :
    Separated left :=
  ⟨fun segment member => separated.nonempty segment (List.mem_append_left _ member),
    (List.pairwise_append.mp separated.gaps).1⟩

theorem appendRight {left right : List Segment} (separated : Separated (left ++ right)) :
    Separated right :=
  ⟨fun segment member => separated.nonempty segment (List.mem_append_right _ member),
    (List.pairwise_append.mp separated.gaps).2.1⟩

theorem append_lt {left right : List Segment} (separated : Separated (left ++ right))
    {first second : Segment} (firstMem : first ∈ left) (secondMem : second ∈ right) :
    first.stop < second.offset :=
  (List.pairwise_append.mp separated.gaps).2.2 first firstMem second secondMem

/-- Nothing of the tail lies at or before the end of the head. -/
theorem stop_lt_of_covers {segment : Segment} {segments : List Segment} {x : Nat}
    (separated : Separated (segment :: segments)) (covered : Covers segments x) :
    segment.stop < x := by
  obtain ⟨other, member, inside⟩ := covered
  exact lt_of_lt_of_le (separated.head_lt member) inside.1

/-- The end of the head is the first number after it that the list misses. -/
theorem not_covers_stop {segment : Segment} {segments : List Segment}
    (separated : Separated (segment :: segments)) :
    ¬ Covers (segment :: segments) segment.stop := by
  rw [covers_cons]
  rintro (inside | covered)
  · exact absurd inside.2 (lt_irrefl _)
  · exact absurd (separated.stop_lt_of_covers covered) (lt_irrefl _)

/-- The offset of the head is the least number the list covers. -/
theorem offset_le_of_covers {segment : Segment} {segments : List Segment} {x : Nat}
    (separated : Separated (segment :: segments)) (covered : Covers (segment :: segments) x) :
    segment.offset ≤ x := by
  rcases covers_cons.mp covered with inside | later
  · exact inside.1
  · have := separated.stop_lt_of_covers later
    simp only [Segment.stop] at this
    omega

theorem covers_offset {segment : Segment} {segments : List Segment}
    (separated : Separated (segment :: segments)) :
    Covers (segment :: segments) segment.offset := by
  have := separated.head_pos
  exact covers_cons.mpr (.inl ⟨le_rfl, by simp only [Segment.stop]; omega⟩)

/-- Two separated lists that cover the same numbers start with the same segment. -/
theorem head_eq {first second : Segment} {left right : List Segment}
    (leftSeparated : Separated (first :: left)) (rightSeparated : Separated (second :: right))
    (same : ∀ x, Covers (first :: left) x ↔ Covers (second :: right) x) : first = second := by
  have offsets : first.offset = second.offset := le_antisymm
    (leftSeparated.offset_le_of_covers ((same _).mpr rightSeparated.covers_offset))
    (rightSeparated.offset_le_of_covers ((same _).mp leftSeparated.covers_offset))
  have leftPos := leftSeparated.head_pos
  have rightPos := rightSeparated.head_pos
  -- If one head stopped inside the other, its stop would be covered on one side only.
  have stops : first.stop = second.stop := by
    rcases lt_trichotomy first.stop second.stop with shorter | equal | longer
    · refine absurd ((same _).mpr (covers_cons.mpr (.inl ⟨?_, shorter⟩)))
        leftSeparated.not_covers_stop
      simp only [Segment.stop]; omega
    · exact equal
    · refine absurd ((same _).mp (covers_cons.mpr (.inl ⟨?_, longer⟩)))
        rightSeparated.not_covers_stop
      simp only [Segment.stop]; omega
  obtain ⟨firstOffset, firstSize⟩ := first
  obtain ⟨secondOffset, secondSize⟩ := second
  simp only [Segment.stop, Segment.mk.injEq] at offsets stops ⊢
  omega

/-- A separated list is determined by the numbers it covers. -/
theorem ext {left right : List Segment} (leftSeparated : Separated left)
    (rightSeparated : Separated right) (same : ∀ x, Covers left x ↔ Covers right x) :
    left = right := by
  induction left generalizing right with
  | nil =>
    cases right with
    | nil => rfl
    | cons second right => exact absurd ((same _).mpr rightSeparated.covers_offset) covers_nil
  | cons first left inductionHypothesis =>
    cases right with
    | nil => exact absurd ((same _).mp leftSeparated.covers_offset) covers_nil
    | cons second right =>
      obtain rfl := head_eq leftSeparated rightSeparated same
      congr 1
      refine inductionHypothesis leftSeparated.tail rightSeparated.tail fun x => ?_
      constructor
      · intro covered
        have later := leftSeparated.stop_lt_of_covers covered
        rcases covers_cons.mp ((same x).mp (covers_cons.mpr (.inr covered))) with inside | other
        · exact absurd inside.2 (by omega)
        · exact other
      · intro covered
        have later := rightSeparated.stop_lt_of_covers covered
        rcases covers_cons.mp ((same x).mpr (covers_cons.mpr (.inr covered))) with inside | other
        · exact absurd inside.2 (by omega)
        · exact other

/-- Each further segment costs a gap: the sizes and the gaps fit into what the
window leaves after the first offset. -/
theorem total_le {segment : Segment} {segments : List Segment} {limit : Nat}
    (separated : Separated (segment :: segments))
    (bounded : ∀ other ∈ segment :: segments, other.stop ≤ limit) :
    segment.offset + total (segment :: segments) + segments.length ≤ limit := by
  induction segments generalizing segment with
  | nil =>
    have := bounded segment (by simp)
    simp only [Segment.stop] at this
    simp; omega
  | cons next rest inductionHypothesis =>
    have later := inductionHypothesis separated.tail
      (fun other member => bounded other (List.mem_cons_of_mem _ member))
    have gap := separated.head_lt (List.mem_cons_self : next ∈ next :: rest)
    simp only [Segment.stop] at gap
    simp only [total_cons, List.length_cons] at later ⊢
    omega

/-- The sizes add up to the whole window exactly when one segment is the window. -/
theorem total_eq_iff {segments : List Segment} {limit : Nat} (positive : 0 < limit)
    (separated : Separated segments) (bounded : ∀ segment ∈ segments, segment.stop ≤ limit) :
    total segments = limit ↔ segments = [⟨0, limit⟩] := by
  constructor
  · intro full
    cases segments with
    | nil => simp at full; omega
    | cons segment rest =>
      have room := separated.total_le bounded
      have single : rest = [] := List.length_eq_zero_iff.mp (by omega)
      subst single
      obtain ⟨offset, size⟩ := segment
      simp only [total_cons, total_nil] at full room
      simp only [List.cons.injEq, Segment.mk.injEq, and_true]
      omega
  · rintro rfl
    simp

theorem covers_window {limit x : Nat} : Covers [⟨0, limit⟩] x ↔ x < limit := by
  simp [Segment.Contains, Segment.stop]

/-- Covering the window means being the one segment that is the window. -/
theorem covers_all_iff {segments : List Segment} {limit : Nat} (positive : 0 < limit)
    (separated : Separated segments) (bounded : ∀ segment ∈ segments, segment.stop ≤ limit) :
    (∀ x < limit, Covers segments x) ↔ segments = [⟨0, limit⟩] := by
  constructor
  · intro all
    refine separated.ext (singleton positive) fun x => ?_
    rw [covers_window]
    refine ⟨fun ⟨segment, member, inside⟩ => ?_, all x⟩
    exact lt_of_lt_of_le inside.2 (bounded segment member)
  · rintro rfl x inside
    exact covers_window.mpr inside

/-- The segments of at least `least` numbers contribute as much to the total. -/
theorem mul_countP_le_total (least : Nat) (segments : List Segment) :
    least * segments.countP (fun segment => least ≤ segment.size) ≤ total segments := by
  induction segments with
  | nil => simp
  | cons segment rest inductionHypothesis =>
    rw [List.countP_cons, total_cons]
    split
    · next large =>
      have large : least ≤ segment.size := by simpa using large
      rw [Nat.mul_succ]
      omega
    · rw [Nat.add_zero]
      omega

/-- Two segments of the list never have a property that forces them to meet. -/
theorem countP_le_one {segments : List Segment} (separated : Separated segments)
    (special : Segment → Prop) [DecidablePred special]
    (meet : ∀ left right, special left → special right → ¬ left.stop < right.offset) :
    segments.countP (fun segment => special segment) ≤ 1 := by
  induction segments with
  | nil => simp
  | cons segment rest inductionHypothesis =>
    rw [List.countP_cons]
    by_cases isSpecial : special segment
    · have others : rest.countP (fun segment => special segment) = 0 := by
        rw [List.countP_eq_zero]
        intro other member isToo
        exact meet segment other isSpecial (by simpa using isToo) (separated.head_lt member)
      simp [others, isSpecial]
    · have tail := inductionHypothesis separated.tail
      simpa [isSpecial] using tail

/-- A window of `count` times `least` numbers has no room for more than `count` segments of which
all but one, of a property that no two of them can have, have at least `least` numbers. -/
theorem length_le_of_large {segments : List Segment} {least count : Nat} (positive : 0 < count)
    (separated : Separated segments)
    (bounded : ∀ segment ∈ segments, segment.stop ≤ count * least)
    (special : Segment → Prop) [DecidablePred special]
    (meet : ∀ left right, special left → special right → ¬ left.stop < right.offset)
    (large : ∀ segment ∈ segments, least ≤ segment.size ∨ special segment) :
    segments.length ≤ count := by
  by_contra many
  have one := separated.countP_le_one special meet
  have most := mul_countP_le_total least segments
  have split : segments.length ≤ segments.countP (fun segment => least ≤ segment.size) +
      segments.countP (fun segment => special segment) := by
    clear one most many bounded separated
    induction segments with
    | nil => simp
    | cons segment rest inductionHypothesis =>
      have tail := inductionHypothesis fun other member => large other (List.mem_cons_of_mem _ member)
      rw [List.length_cons, List.countP_cons, List.countP_cons]
      rcases large segment List.mem_cons_self with isLarge | isSpecial
      · simp only [isLarge, decide_true, if_true]
        omega
      · simp only [isSpecial, decide_true, if_true]
        omega
  cases segments with
  | nil => simp at many
  | cons segment rest =>
    have room := separated.total_le bounded
    have enough : count * least ≤
        least * (segment :: rest).countP (fun segment => least ≤ segment.size) := by
      rw [Nat.mul_comm]
      exact Nat.mul_le_mul_left _ (by omega)
    simp only [List.length_cons] at many
    omega

end Separated

end Library.Segments

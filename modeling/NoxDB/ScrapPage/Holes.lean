import NoxDB.ScrapPage.Merge

/-! # Holes, widened reads and the hole fill

The hole list is the complement of the entries (`covers_scrapPageHoleRanges`), the
runs read from the device are the maximal runs of blocks that contain a hole byte
(`covers_holeRuns`, `holeRuns_separated`), and a successful read puts into every
byte of a run what its own call delivered there (`readRuns_scratch`).  The hole
fill copies the scratch zone into exactly the bytes that are still holes
(`scrapPageApplyHoles_data`).
-/

namespace NoxDB

open Library.Segments

variable {α : Type}

/-! ## The hole list -/

section HoleRanges

variable {max cursor n : Nat} {entries : List ScrapEntry}

theorem covers_holeRangesFrom (x : Nat) (separated : Separated entries)
    (bounded : ∀ entry ∈ entries, entry.stop ≤ zoneSize)
    (ahead : ∀ entry ∈ entries, cursor ≤ entry.offset) (room : n + entries.length < max) :
    Covers (holeRangesFrom max entries cursor n) x ↔
      cursor ≤ x ∧ x < zoneSize ∧ ¬ Covers entries x := by
  induction entries generalizing cursor n with
  | nil =>
    simp only [List.length_nil, Nat.add_zero] at room
    by_cases inside : cursor < zoneSize
    · simp only [holeRangesFrom, inside, room, and_self, if_true, covers_cons, covers_nil,
        or_false, not_false_eq_true, and_true, Segment.Contains, Segment.stop]
      omega
    · simp only [holeRangesFrom, inside, false_and, if_false, covers_nil, not_false_eq_true,
        and_true, false_iff]
      omega
  | cons entry rest inductionHypothesis =>
    simp only [List.length_cons] at room
    have size := separated.head_pos
    have stop := bounded entry (by simp)
    have start := ahead entry (by simp)
    have later : ∀ other ∈ rest, entry.offset + entry.size ≤ other.offset := fun other member =>
      le_of_lt (separated.head_lt member)
    have restBounded : ∀ other ∈ rest, other.stop ≤ zoneSize := fun other member =>
      bounded other (List.mem_cons_of_mem _ member)
    -- Whatever the tail covers lies past the end of this entry.
    have beyond : Covers rest x → entry.stop < x := fun covered =>
      separated.stop_lt_of_covers covered
    simp only [Segment.stop] at stop beyond
    rw [holeRangesFrom]
    split
    · rw [if_neg (by omega), covers_cons,
        inductionHypothesis separated.tail restBounded later (by omega), covers_cons]
      simp only [Segment.Contains, Segment.stop]
      by_cases covered : Covers rest x
      · have := beyond covered
        simp only [covered, or_true, not_true_eq_false, and_false, or_false, iff_false]
        omega
      · simp only [covered, not_false_eq_true, and_true, or_false]
        omega
    · rw [inductionHypothesis separated.tail restBounded later (by omega), covers_cons]
      simp only [Segment.Contains, Segment.stop]
      by_cases covered : Covers rest x
      · simp [covered]
      · simp only [covered, not_false_eq_true, and_true, or_false]
        omega

theorem cursor_le_holeRangesFrom
    (ahead : ∀ entry ∈ entries, cursor ≤ entry.offset) (separated : Separated entries) :
    ∀ hole ∈ holeRangesFrom max entries cursor n, cursor ≤ hole.offset := by
  induction entries generalizing cursor n with
  | nil =>
    rw [holeRangesFrom]
    split <;> simp
  | cons entry rest inductionHypothesis =>
    have start := ahead entry (by simp)
    have later : ∀ other ∈ rest, entry.offset + entry.size ≤ other.offset := fun other member =>
      le_of_lt (separated.head_lt member)
    intro hole member
    rw [holeRangesFrom] at member
    split at member
    · split at member
      · simp at member
      · rcases List.mem_cons.mp member with rfl | tailMem
        · exact le_rfl
        · have := inductionHypothesis later separated.tail hole tailMem
          omega
    · have := inductionHypothesis later separated.tail hole member
      omega

theorem holeRangesFrom_separated (separated : Separated entries)
    (ahead : ∀ entry ∈ entries, cursor ≤ entry.offset) :
    Separated (holeRangesFrom max entries cursor n) := by
  induction entries generalizing cursor n with
  | nil =>
    rw [holeRangesFrom]
    split
    · exact .singleton (by simp only; omega)
    · exact .nil
  | cons entry rest inductionHypothesis =>
    have size := separated.head_pos
    have later : ∀ other ∈ rest, entry.offset + entry.size ≤ other.offset := fun other member =>
      le_of_lt (separated.head_lt member)
    rw [holeRangesFrom]
    split
    · split
      · exact .nil
      · refine .cons (by simp only; omega) ?_ (inductionHypothesis separated.tail later)
        intro hole member
        have := cursor_le_holeRangesFrom later separated.tail hole member
        simp only [Segment.stop]
        omega
    · exact inductionHypothesis separated.tail later

end HoleRanges

/-- The hole list is the exact complement of the entries within the zone. -/
theorem covers_scrapPageHoleRanges {maxEntries : Nat} {page : ScrapPage α} (x : Nat)
    (wellFormed : page.WellFormed maxEntries) :
    Covers (scrapPageHoleRanges page (maxEntries + 1)) x ↔ x < zoneSize ∧ ¬ page.Covered x := by
  have fits := wellFormed.fits
  rw [ScrapHeader.number] at fits
  rw [scrapPageHoleRanges, covers_holeRangesFrom x wellFormed.separated wellFormed.bounded
    (by simp) (by omega)]
  simp [ScrapPage.Covered]

theorem scrapPageHoleRanges_separated {maxEntries : Nat} {page : ScrapPage α}
    (wellFormed : page.WellFormed maxEntries) (max : Nat) :
    Separated (scrapPageHoleRanges page max) :=
  holeRangesFrom_separated wellFormed.separated (by simp)

/-! ## Filling the holes -/

theorem foldl_copyAt (holes : List ScrapEntry) (data scratch : Nat → α) (x : Nat) :
    holes.foldl
        (fun data hole => copyAt data hole.offset hole.size fun i => scratch (hole.offset + i))
        data x =
      if Covers holes x then scratch x else data x := by
  induction holes generalizing data with
  | nil => simp
  | cons hole holes inductionHypothesis =>
    rw [List.foldl_cons, inductionHypothesis]
    by_cases later : Covers holes x
    · simp [later]
    · by_cases inside : hole.Contains x
      · have range : hole.offset ≤ x ∧ x < hole.offset + hole.size := inside
        simp [later, inside, copyAt, range]
      · have range : ¬ (hole.offset ≤ x ∧ x < hole.offset + hole.size) := inside
        simp [later, inside, copyAt, range]

section Apply

variable {maxEntries : Nat} {page : ScrapPage α} (scratch : Nat → α)

theorem scrapPageApplyHoles_wellFormed (enough : 1 ≤ maxEntries) :
    (scrapPageApplyHoles maxEntries page scratch).WellFormed maxEntries :=
  ⟨.singleton (by decide), by simp [scrapPageApplyHoles, Segment.stop],
    by simpa [scrapPageApplyHoles, ScrapHeader.number] using enough,
    by simp [scrapPageApplyHoles]⟩

theorem scrapPageApplyHoles_covered (x : Nat) :
    (scrapPageApplyHoles maxEntries page scratch).Covered x ↔ x < zoneSize := by
  simp [ScrapPage.Covered, scrapPageApplyHoles, Segment.Contains, Segment.stop]

theorem scrapPageApplyHoles_full :
    scrapPageIsFull (scrapPageApplyHoles maxEntries page scratch) = true := by
  simp [scrapPageIsFull, scrapPageApplyHoles]

/-- User bytes stay, hole bytes come from the scratch zone. -/
theorem scrapPageApplyHoles_data (wellFormed : page.WellFormed maxEntries) {x : Nat}
    (inside : x < zoneSize) :
    (scrapPageApplyHoles maxEntries page scratch).data x =
      if page.Covered x then page.data x else scratch x := by
  rw [scrapPageApplyHoles]
  dsimp only
  rw [foldl_copyAt]
  by_cases covered : page.Covered x
  · rw [if_pos covered, if_neg]
    exact fun hole => ((covers_scrapPageHoleRanges x wellFormed).mp hole).2 covered
  · rw [if_neg covered, if_pos]
    exact (covers_scrapPageHoleRanges x wellFormed).mpr ⟨inside, covered⟩

end Apply

end NoxDB

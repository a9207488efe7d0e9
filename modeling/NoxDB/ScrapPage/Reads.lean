import NoxDB.ScrapPage.Holes

/-! # The reads of Stage-1

`scrap_page_read_holes` widens each hole to block boundaries and fuses what
touches.  `IsBlockRuns` describes the outcome without the loop: the separated list
of runs that covers exactly the blocks with a hole byte.  By `Separated.ext` there
is only one such list, so the loop's own run list is that one
(`isBlockRuns_holeRuns`), and the number of a call is the rank of its run.
-/

namespace NoxDB

open Library.Segments

variable {α : Type}

/-! ## Block arithmetic -/

theorem alignDown_le (offset : Nat) : alignDown offset ≤ offset := Nat.sub_le _ _

theorem alignDown_mono {first second : Nat} (le : first ≤ second) :
    alignDown first ≤ alignDown second := by
  simp only [alignDown, blockSize]
  omega

theorem alignDown_dvd (offset : Nat) : blockSize ∣ alignDown offset := Nat.dvd_sub_mod offset

theorem alignUp_dvd (stop : Nat) : blockSize ∣ alignUp stop := by
  rw [alignUp]
  split
  · decide
  · exact alignDown_dvd _

theorem le_alignUp {stop : Nat} (inside : stop ≤ zoneSize) : stop ≤ alignUp stop := by
  rw [alignUp]
  split
  · exact inside
  · simp only [alignDown, blockSize]
    omega

theorem alignUp_le (stop : Nat) : alignUp stop ≤ zoneSize := by
  rw [alignUp]
  split <;> omega

/-- The widened range consists of the blocks that share a byte with the hole. -/
theorem mem_widened_iff {hole : Segment} {x : Nat} (positive : 0 < hole.size)
    (inside : hole.stop ≤ zoneSize) :
    alignDown hole.offset ≤ x ∧ x < alignUp (hole.offset + hole.size) ↔
      ∃ y, hole.Contains y ∧ y / blockSize = x / blockSize := by
  simp only [Segment.Contains, Segment.stop] at inside ⊢
  constructor
  · rintro ⟨low, high⟩
    rcases lt_or_ge x hole.offset with before | after
    · refine ⟨hole.offset, ⟨le_rfl, by omega⟩, ?_⟩
      simp only [alignDown, blockSize] at low ⊢
      omega
    · rcases lt_or_ge x (hole.offset + hole.size) with within | beyond
      · exact ⟨x, ⟨after, within⟩, rfl⟩
      · refine ⟨hole.offset + hole.size - 1, ⟨by omega, by omega⟩, ?_⟩
        have clamp : alignUp (hole.offset + hole.size) ≤
            alignDown (hole.offset + hole.size + (blockSize - 1)) := by
          rw [alignUp]
          split <;> omega
        simp only [alignDown, blockSize] at clamp ⊢
        omega
  · rintro ⟨y, ⟨low, high⟩, block⟩
    refine ⟨?_, ?_⟩
    · simp only [alignDown, blockSize] at block ⊢
      omega
    · rw [alignUp]
      split <;> simp only [alignDown, blockSize, zoneSize] at * <;> omega

/-! ## The run list -/

section Runs

variable {holes : List ScrapEntry} {runOff runEnd : Nat}

theorem alignDown_lt_alignUp {hole : Segment} (positive : 0 < hole.size)
    (inside : hole.stop ≤ zoneSize) :
    alignDown hole.offset < alignUp (hole.offset + hole.size) := by
  have low := alignDown_le hole.offset
  have high := le_alignUp inside
  simp only [Segment.stop] at high
  omega

theorem alignDown_le_of_mem {hole other : Segment} (separated : Separated (hole :: holes))
    (member : other ∈ holes) : alignDown hole.offset ≤ alignDown other.offset := by
  apply alignDown_mono
  have := separated.head_lt member
  simp only [Segment.stop] at this
  omega

theorem covers_holeRuns_some (x : Nat) (separated : Separated holes)
    (bounded : ∀ hole ∈ holes, hole.stop ≤ zoneSize)
    (behind : ∀ hole ∈ holes, runOff ≤ alignDown hole.offset) (order : runOff ≤ runEnd) :
    Covers (holeRuns holes (some (runOff, runEnd))) x ↔
      (runOff ≤ x ∧ x < runEnd) ∨
        ∃ hole ∈ holes, alignDown hole.offset ≤ x ∧ x < alignUp (hole.offset + hole.size) := by
  induction holes generalizing runOff runEnd with
  | nil =>
    simp only [holeRuns, covers_cons, covers_nil, or_false, List.not_mem_nil, false_and,
      exists_false, Segment.Contains, Segment.stop]
    omega
  | cons hole holes inductionHypothesis =>
    have start := behind hole (by simp)
    have sorted : ∀ other ∈ holes, alignDown hole.offset ≤ alignDown other.offset :=
      fun other member => alignDown_le_of_mem separated member
    have restBounded : ∀ other ∈ holes, other.stop ≤ zoneSize :=
      fun other member => bounded other (List.mem_cons_of_mem _ member)
    rw [holeRuns]
    split
    · rw [inductionHypothesis separated.tail restBounded
        (fun other member => start.trans (sorted other member)) (by split <;> omega)]
      simp only [List.mem_cons, exists_eq_or_imp, ← or_assoc]
      apply or_congr_left
      split <;> omega
    · have nonempty := alignDown_lt_alignUp separated.head_pos (bounded hole (by simp))
      rw [covers_cons, inductionHypothesis separated.tail restBounded sorted nonempty.le]
      simp only [List.mem_cons, exists_eq_or_imp, Segment.Contains, Segment.stop]
      apply or_congr_left
      omega

theorem runOff_le_holeRuns (separated : Separated holes)
    (behind : ∀ hole ∈ holes, runOff ≤ alignDown hole.offset) :
    ∀ run ∈ holeRuns holes (some (runOff, runEnd)), runOff ≤ run.offset := by
  induction holes generalizing runOff runEnd with
  | nil => simp [holeRuns]
  | cons hole holes inductionHypothesis =>
    have start := behind hole (by simp)
    have sorted : ∀ other ∈ holes, alignDown hole.offset ≤ alignDown other.offset :=
      fun other member => alignDown_le_of_mem separated member
    intro run member
    rw [holeRuns] at member
    split at member
    · exact inductionHypothesis separated.tail
        (fun other otherMem => start.trans (sorted other otherMem)) run member
    · rcases List.mem_cons.mp member with rfl | later
      · exact le_rfl
      · exact start.trans (inductionHypothesis separated.tail sorted run later)

theorem holeRuns_some_separated (separated : Separated holes)
    (bounded : ∀ hole ∈ holes, hole.stop ≤ zoneSize)
    (behind : ∀ hole ∈ holes, runOff ≤ alignDown hole.offset) (order : runOff < runEnd) :
    Separated (holeRuns holes (some (runOff, runEnd))) := by
  induction holes generalizing runOff runEnd with
  | nil => exact .singleton (by simp only; omega)
  | cons hole holes inductionHypothesis =>
    have start := behind hole (by simp)
    have sorted : ∀ other ∈ holes, alignDown hole.offset ≤ alignDown other.offset :=
      fun other member => alignDown_le_of_mem separated member
    have restBounded : ∀ other ∈ holes, other.stop ≤ zoneSize :=
      fun other member => bounded other (List.mem_cons_of_mem _ member)
    rw [holeRuns]
    split
    · exact inductionHypothesis separated.tail restBounded
        (fun other member => start.trans (sorted other member)) (by split <;> omega)
    · next gap =>
      refine .cons (by simp only; omega) ?_ (inductionHypothesis separated.tail restBounded sorted
        (alignDown_lt_alignUp separated.head_pos (bounded hole (by simp))))
      intro run member
      have := runOff_le_holeRuns separated.tail sorted run member
      simp only [Segment.stop]
      omega

end Runs

/-- The runs of blocks of `[0, zoneSize)` that contain a byte with property `hole`:
separated runs that cover exactly those blocks. -/
structure IsBlockRuns (hole : Nat → Prop) (runs : List Segment) : Prop where
  separated : Separated runs
  covers : ∀ x, Covers runs x ↔ ∃ y, hole y ∧ y / blockSize = x / blockSize

theorem IsBlockRuns.unique {hole : Nat → Prop} {first second : List Segment}
    (firstRuns : IsBlockRuns hole first) (secondRuns : IsBlockRuns hole second) :
    first = second :=
  firstRuns.separated.ext secondRuns.separated fun x =>
    (firstRuns.covers x).trans (secondRuns.covers x).symm

theorem isBlockRuns_holeRuns {holes : List ScrapEntry} (separated : Separated holes)
    (bounded : ∀ hole ∈ holes, hole.stop ≤ zoneSize) :
    IsBlockRuns (Covers holes) (holeRuns holes none) := by
  cases holes with
  | nil => exact ⟨.nil, by simp [holeRuns]⟩
  | cons hole holes =>
    have sorted : ∀ other ∈ holes, alignDown hole.offset ≤ alignDown other.offset :=
      fun other member => alignDown_le_of_mem separated member
    have restBounded : ∀ other ∈ holes, other.stop ≤ zoneSize :=
      fun other member => bounded other (List.mem_cons_of_mem _ member)
    have nonempty := alignDown_lt_alignUp separated.head_pos (bounded hole (by simp))
    rw [holeRuns]
    refine ⟨holeRuns_some_separated separated.tail restBounded sorted nonempty, fun x => ?_⟩
    rw [covers_holeRuns_some x separated.tail restBounded sorted nonempty.le,
      mem_widened_iff separated.head_pos (bounded hole (by simp))]
    constructor
    · rintro (⟨y, inside, block⟩ | ⟨other, member, range⟩)
      · exact ⟨y, covers_cons.mpr (.inl inside), block⟩
      · obtain ⟨y, inside, block⟩ := (mem_widened_iff (separated.tail.nonempty other member)
          (restBounded other member)).mp range
        exact ⟨y, covers_cons.mpr (.inr ⟨other, member, inside⟩), block⟩
    · rintro ⟨y, covered, block⟩
      rcases covers_cons.mp covered with inside | ⟨other, member, inside⟩
      · exact .inl ⟨y, inside, block⟩
      · exact .inr ⟨other, member, (mem_widened_iff (separated.tail.nonempty other member)
          (restBounded other member)).mpr ⟨y, inside, block⟩⟩

/-- Every hole byte lies in one of the runs. -/
theorem covers_holeRuns_of_covers {holes : List ScrapEntry} {x : Nat} (separated : Separated holes)
    (bounded : ∀ hole ∈ holes, hole.stop ≤ zoneSize) (covered : Covers holes x) :
    Covers (holeRuns holes none) x :=
  ((isBlockRuns_holeRuns separated bounded).covers x).mpr ⟨x, covered, rfl⟩

theorem scrapPageHoleRanges_bounded {maxEntries : Nat} {page : ScrapPage α}
    (wellFormed : page.WellFormed maxEntries) :
    ∀ hole ∈ scrapPageHoleRanges page (maxEntries + 1), hole.stop ≤ zoneSize := by
  intro hole member
  have positive := (scrapPageHoleRanges_separated wellFormed _).nonempty hole member
  have last : Covers (scrapPageHoleRanges page (maxEntries + 1)) (hole.stop - 1) :=
    ⟨hole, member, by simp only [Segment.Contains, Segment.stop]; omega⟩
  have inside := ((covers_scrapPageHoleRanges _ wellFormed).mp last).1
  simp only [Segment.stop] at inside ⊢
  omega

/-- The requests for a page are the runs of blocks with at least one hole byte. -/
theorem scrapPageHoleRanges_runs {maxEntries : Nat} {page : ScrapPage α}
    (wellFormed : page.WellFormed maxEntries) :
    IsBlockRuns (fun x => x < zoneSize ∧ ¬ page.Covered x)
      (holeRuns (scrapPageHoleRanges page (maxEntries + 1)) none) := by
  have runs := isBlockRuns_holeRuns (scrapPageHoleRanges_separated wellFormed (maxEntries + 1))
    (scrapPageHoleRanges_bounded wellFormed)
  refine ⟨runs.separated, fun x => ?_⟩
  rw [runs.covers]
  simp only [covers_scrapPageHoleRanges _ wellFormed]

/-- A run of whole blocks of a zone. -/
structure BlockRun (run : Segment) : Prop where
  offset : blockSize ∣ run.offset
  size : blockSize ∣ run.size
  inside : run.stop ≤ zoneSize

theorem BlockRun.of_ends {runOff runEnd : Nat} (start : blockSize ∣ runOff)
    (stop : blockSize ∣ runEnd) (offInside : runOff ≤ zoneSize) (endInside : runEnd ≤ zoneSize) :
    BlockRun ⟨runOff, runEnd - runOff⟩ where
  offset := start
  size := Nat.dvd_sub stop start
  inside := by simp only [Segment.stop]; omega

theorem holeRuns_some_blocks {holes : List ScrapEntry} {runOff runEnd : Nat}
    (bounded : ∀ hole ∈ holes, hole.stop ≤ zoneSize) (start : blockSize ∣ runOff)
    (stop : blockSize ∣ runEnd) (offInside : runOff ≤ zoneSize) (endInside : runEnd ≤ zoneSize) :
    ∀ run ∈ holeRuns holes (some (runOff, runEnd)), BlockRun run := by
  induction holes generalizing runOff runEnd with
  | nil => simpa [holeRuns] using BlockRun.of_ends start stop offInside endInside
  | cons hole holes inductionHypothesis =>
    have rest : ∀ other ∈ holes, other.stop ≤ zoneSize :=
      fun other member => bounded other (List.mem_cons_of_mem _ member)
    have low : alignDown hole.offset ≤ zoneSize := by
      have inside := bounded hole List.mem_cons_self
      have below := alignDown_le hole.offset
      simp only [Segment.stop] at inside
      omega
    rw [holeRuns]
    split
    · apply inductionHypothesis rest start _ offInside
      · split
        · exact alignUp_le _
        · exact endInside
      · split
        · exact alignUp_dvd _
        · exact stop
    · intro run member
      rcases List.mem_cons.mp member with rfl | later
      · exact .of_ends start stop offInside endInside
      · exact inductionHypothesis rest (alignDown_dvd _) (alignUp_dvd _) low (alignUp_le _) run later

/-- Whatever the holes are, the device is asked for whole blocks inside the zone. -/
theorem holeRuns_blocks {holes : List ScrapEntry} (bounded : ∀ hole ∈ holes, hole.stop ≤ zoneSize) :
    ∀ run ∈ holeRuns holes none, BlockRun run := by
  cases holes with
  | nil => simp [holeRuns]
  | cons hole holes =>
    have inside := bounded hole List.mem_cons_self
    have below := alignDown_le hole.offset
    simp only [Segment.stop] at inside
    rw [holeRuns]
    exact holeRuns_some_blocks (fun other member => bounded other (List.mem_cons_of_mem _ member))
      (alignDown_dvd _) (alignUp_dvd _) (by omega) (alignUp_le _)

/-! ## What a successful read leaves in the scratch zone -/

section Scratch

variable {disk zero scratch result : Nat → α} {runs : List Segment} {results : Nat → Pread}
  {asked total x : Nat}

theorem readRuns_outside
    (read : readRuns disk zero runs results asked scratch = (some total, result))
    (outside : ¬ Covers runs x) : result x = scratch x := by
  induction runs generalizing results asked scratch with
  | nil => simp_all [readRuns]
  | cons run runs inductionHypothesis =>
    rw [covers_cons, not_or] at outside
    cases delivered : results 0 with
    | fail => simp [readRuns, readRun, delivered] at read
    | count r =>
      simp only [readRuns, readRun, delivered] at read
      rw [inductionHypothesis read outside.2]
      simp [outside.1]

/-- Byte `x` of the `i`-th run holds the device byte when the `i`-th call delivered
it, and zero when that call came back short of it. -/
theorem readRuns_scratch (separated : Separated runs)
    (read : readRuns disk zero runs results asked scratch = (some total, result))
    {i : Nat} {run : Segment} (issued : runs[i]? = some run) (inside : run.Contains x) :
    ∃ delivered, results i = .count delivered ∧
      result x = if x < run.offset + delivered then disk x else zero x := by
  induction runs generalizing results asked scratch i with
  | nil => simp at issued
  | cons first runs inductionHypothesis =>
    cases outcome : results 0 with
    | fail => simp [readRuns, readRun, outcome] at read
    | count r =>
      simp only [readRuns, readRun, outcome] at read
      cases i with
      | zero =>
        simp only [List.getElem?_cons_zero, Option.some.injEq] at issued
        subst issued
        -- No later run reaches back into this one.
        have outside : ¬ Covers runs x := fun later =>
          absurd (separated.stop_lt_of_covers later) (by have := inside.2; omega)
        refine ⟨r, outcome, ?_⟩
        rw [readRuns_outside read outside]
        simp [inside]
      | succ i =>
        simp only [List.getElem?_cons_succ] at issued
        exact inductionHypothesis separated.tail read issued

end Scratch

end NoxDB

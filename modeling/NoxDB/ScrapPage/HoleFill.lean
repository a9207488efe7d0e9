import NoxDB.File
import NoxDB.ScrapPage.Reads

/-! # Short reads and the hole fill

`read_run` clears its run, reads it once and looks only at whether the call failed,
so a count short of the request counts as the end of file.  The results here say
for which read outcomes the hole fill is right: exactly those in which every hole
byte that its own call left out is zero on disk.
-/

namespace NoxDB

open Library.Segments

/-- Stage-1's read of the holes of `page`, from `file`. -/
def readPageHoles (cfg : Config) (page : ScrapPage UInt8) (file : File) (results : Nat → Pread)
    (scratch : Nat → UInt8) : Option Nat × (Nat → UInt8) :=
  scrapPageReadHoles (fun x => file.byte (page.base + x)) (fun _ => 0)
    (scrapPageHoleRanges page (cfg.maxEntries + 1)) results scratch

/-- If the read reports success, the hole fill gives every hole byte its value on
disk, and writing the zone back changes no byte outside the user's segments. -/
def HoleFillRight (cfg : Config) (page : ScrapPage UInt8) (file : File)
    (results : Nat → Pread) (scratch : Nat → UInt8) : Prop :=
  ∀ asked filled, readPageHoles cfg page file results scratch = (some asked, filled) →
    (∀ x < zoneSize, ¬ page.Covered x →
      (scrapPageApplyHoles cfg.maxEntries page filled).data x = file.byte (page.base + x)) ∧
    ∀ offset, ¬ (page.base ≤ offset ∧ page.Covered (offset - page.base)) →
      (file.pwrite page.base zoneSize
        (scrapPageApplyHoles cfg.maxEntries page filled).data).byte offset = file.byte offset

/-- A byte of the zone that the user has not written. -/
def ScrapPage.Hole (page : ScrapPage UInt8) (x : Nat) : Prop := x < zoneSize ∧ ¬ page.Covered x

/-- Every hole byte is zero on disk unless the call for its run of blocks delivered
it.  The calls are numbered by the runs of blocks with a hole byte. -/
def CutsOnlyZeros (page : ScrapPage UInt8) (file : File) (results : Nat → Pread) : Prop :=
  ∀ runs, IsBlockRuns page.Hole runs → (∀ i < runs.length, results i ≠ .fail) →
    ∀ i run delivered, runs[i]? = some run → results i = .count delivered →
      ∀ x, page.Hole x → run.Contains x → run.offset + delivered ≤ x →
        file.byte (page.base + x) = 0

section Outcome

variable {α : Type} {disk zero : Nat → α} {runs : List Segment} {results : Nat → Pread}

theorem readRuns_succeeds (disk zero : Nat → α) (asked : Nat) (scratch : Nat → α)
    (delivers : ∀ i < runs.length, results i ≠ .fail) :
    ∃ total result, readRuns disk zero runs results asked scratch = (some total, result) := by
  induction runs generalizing results asked scratch with
  | nil => exact ⟨asked, scratch, rfl⟩
  | cons run runs inductionHypothesis =>
    cases first : results 0 with
    | fail => exact absurd first (delivers 0 (by simp))
    | count delivered =>
      simp only [readRuns, readRun, first]
      exact inductionHypothesis _ _ fun i bound => delivers (i + 1) (by simpa using bound)

theorem readRuns_delivers {asked total : Nat} {scratch result : Nat → α}
    (separated : Separated runs)
    (read : readRuns disk zero runs results asked scratch = (some total, result)) :
    ∀ i < runs.length, results i ≠ .fail := by
  intro i bound
  have positive := separated.nonempty _ (List.getElem_mem bound)
  obtain ⟨delivered, outcome, _⟩ := readRuns_scratch separated read
    (List.getElem?_eq_getElem bound) (x := runs[i].offset)
    ⟨le_rfl, by simp only [Segment.stop]; omega⟩
  simp [outcome]

end Outcome

section Fill

variable {cfg : Config} {page : ScrapPage UInt8} {file : File} {results : Nat → Pread}
  {scratch filled : Nat → UInt8} {asked : Nat}

/-- After a successful read, a hole byte holds what its own call delivered. -/
theorem applyHoles_hole (wellFormed : page.WellFormed cfg.maxEntries)
    (read : readPageHoles cfg page file results scratch = (some asked, filled))
    {i x : Nat} {run : Segment}
    (issued : (holeRuns (scrapPageHoleRanges page (cfg.maxEntries + 1)) none)[i]? = some run)
    (inside : run.Contains x) (hole : page.Hole x) :
    ∃ delivered, results i = .count delivered ∧
      (scrapPageApplyHoles cfg.maxEntries page filled).data x =
        if x < run.offset + delivered then file.byte (page.base + x) else 0 := by
  obtain ⟨delivered, outcome, value⟩ :=
    readRuns_scratch (scrapPageHoleRanges_runs wellFormed).separated read issued inside
  refine ⟨delivered, outcome, ?_⟩
  rw [scrapPageApplyHoles_data filled wellFormed hole.1, if_neg hole.2, value]

theorem holeFillRight_of_holes
    (right : ∀ asked filled, readPageHoles cfg page file results scratch = (some asked, filled) →
      ∀ x, page.Hole x →
        (scrapPageApplyHoles cfg.maxEntries page filled).data x = file.byte (page.base + x)) :
    HoleFillRight cfg page file results scratch := by
  intro asked filled read
  refine ⟨fun x inside uncovered => right asked filled read x ⟨inside, uncovered⟩, ?_⟩
  intro offset outside
  rw [File.pwrite_byte]
  split
  · next window =>
    rw [right asked filled read _ ⟨by omega, fun covered => outside ⟨window.1, covered⟩⟩]
    congr 1
    omega
  · rfl

end Fill

/-- The hole fill is right exactly when no call cuts off a hole byte that is not
zero on disk. -/
theorem holeFillRight_iff (cfg : Config) (page : ScrapPage UInt8) (file : File)
    (results : Nat → Pread) (scratch : Nat → UInt8)
    (wellFormed : page.WellFormed cfg.maxEntries) :
    HoleFillRight cfg page file results scratch ↔ CutsOnlyZeros page file results := by
  have ownRuns := scrapPageHoleRanges_runs wellFormed
  constructor
  · intro right runs isRuns delivers i run delivered issued outcome x hole inside cut
    obtain rfl := isRuns.unique ownRuns
    obtain ⟨asked, filled, read⟩ := readRuns_succeeds (fun x => file.byte (page.base + x))
      (fun _ => 0) 0 scratch delivers
    obtain ⟨count, counted, value⟩ := applyHoles_hole wellFormed read issued inside hole
    obtain rfl : count = delivered := by simpa [outcome] using counted.symm
    rw [← (right asked filled read).1 x hole.1 hole.2, value, if_neg (by omega)]
  · intro cuts
    refine holeFillRight_of_holes fun asked filled read x hole => ?_
    obtain ⟨run, member, inside⟩ := (ownRuns.covers x).mpr ⟨x, hole, rfl⟩
    obtain ⟨i, bound, rfl⟩ := List.getElem_of_mem member
    have issued := List.getElem?_eq_getElem bound
    obtain ⟨delivered, outcome, value⟩ := applyHoles_hole wellFormed read issued inside hole
    rw [value]
    split
    · rfl
    · exact (cuts _ ownRuns (readRuns_delivers ownRuns.separated read) i _ delivered issued
        outcome x hole inside (by omega)).symm

/-- A page at offset 0 of which the user has written the first byte. -/
def oneBytePage : ScrapPage UInt8 :=
  (scrapPageMerge 64 (scrapPageAlloc 0 0 fun _ => 0xAA) (fun _ => 1) 0 1).2

theorem oneBytePage_wellFormed : oneBytePage.WellFormed Config.standard.maxEntries :=
  ⟨.singleton (by decide), by decide, by decide, by decide⟩

/-- The file has 8192 bytes, all of them 7; the one `pread` for the page's holes is
interrupted after 4096 bytes, and the hole byte at offset 5000 becomes 0. -/
theorem holeFillRight_short_read :
    ¬ HoleFillRight Config.standard oneBytePage (File.ofBytes 8192 fun _ => 7)
      (fun _ => .count 4096) (fun _ => 0) := by
  intro right
  have wrong := (right 262144 _ rfl).1 5000 (by decide) (by decide)
  revert wrong
  decide

/-- A read that is short only at the end of file: the same file, 8192 of the
262144 requested bytes delivered. -/
theorem holeFillRight_at_eof :
    HoleFillRight Config.standard oneBytePage (File.ofBytes 8192 fun _ => 7)
      (fun _ => .count 8192) (fun _ => 0) := by
  refine (holeFillRight_iff _ _ _ _ _ oneBytePage_wellFormed).mpr ?_
  intro runs _ _ i run delivered _ outcome x _ _ cut
  obtain rfl : 8192 = delivered := by simpa using outcome
  exact (File.ofBytes 8192 fun _ => 7).zero_past _
    (by simp only [File.ofBytes, oneBytePage, scrapPageMerge]; omega)

end NoxDB

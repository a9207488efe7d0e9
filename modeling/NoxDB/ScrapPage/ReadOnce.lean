import Mathlib.Data.List.Nodup
import NoxDB.ScrapPage.HoleFill

/-! # Every block once

The requests of Stage-1 for a page are whole blocks, so counting in blocks scales the run list
down to a separated list of segments of `[0, 64)`: a run takes at least one block and leaves at
least one to its neighbour, which bounds the number of calls by 32, and the blocks of the runs,
listed one after another, have no repetition.
-/

namespace NoxDB

open Library.Segments

/-- The calls of `read_run` for a page, in order. -/
def holeRequests (cfg : Config) (page : ScrapPage UInt8) : List Segment :=
  holeRuns (scrapPageHoleRanges page (cfg.maxEntries + 1)) none

/-- A run of blocks, counted in blocks. -/
def blockScale (run : Segment) : Segment := ⟨run.offset / blockSize, run.size / blockSize⟩

/-- The blocks of a run. -/
def runBlocks (run : Segment) : List Nat :=
  List.range' (run.offset / blockSize) (run.size / blockSize)

/-- The blocks the device is asked for, call by call. -/
def requestedBlocks (cfg : Config) (page : ScrapPage UInt8) : List Nat :=
  (holeRequests cfg page).flatMap runBlocks

section Blocks

variable {runs : List Segment}

theorem BlockRun.offset_eq {run : Segment} (block : BlockRun run) :
    run.offset = blockSize * (blockScale run).offset :=
  (Nat.mul_div_cancel' block.offset).symm

theorem BlockRun.size_eq {run : Segment} (block : BlockRun run) :
    run.size = blockSize * (blockScale run).size :=
  (Nat.mul_div_cancel' block.size).symm

theorem mem_runBlocks {run : Segment} (block : BlockRun run) {b : Nat} :
    b ∈ runBlocks run ↔ run.Contains (blockSize * b) := by
  have offset := block.offset_eq
  have size := block.size_eq
  simp only [runBlocks, List.mem_range'_1, Segment.Contains, Segment.stop, blockScale,
    blockSize] at *
  omega

theorem blockScale_separated (separated : Separated runs) (blocks : ∀ run ∈ runs, BlockRun run) :
    Separated (runs.map blockScale) := by
  refine ⟨?_, ?_⟩
  · intro segment member
    obtain ⟨run, runMem, rfl⟩ := List.mem_map.mp member
    have positive := separated.nonempty run runMem
    have size := (blocks run runMem).size_eq
    simp only [blockSize] at size
    omega
  · rw [List.pairwise_map]
    refine separated.gaps.imp_of_mem fun {left right} leftMem rightMem gap => ?_
    have leftOffset := (blocks left leftMem).offset_eq
    have leftSize := (blocks left leftMem).size_eq
    have rightOffset := (blocks right rightMem).offset_eq
    simp only [Segment.stop, blockSize] at *
    omega

theorem blockScale_bounded (blocks : ∀ run ∈ runs, BlockRun run) :
    ∀ segment ∈ runs.map blockScale, segment.stop ≤ zoneSize / blockSize := by
  intro segment member
  obtain ⟨run, runMem, rfl⟩ := List.mem_map.mp member
  have block := blocks run runMem
  have offset := block.offset_eq
  have size := block.size_eq
  have inside := block.inside
  simp only [Segment.stop, blockSize, zoneSize] at *
  omega

theorem total_eq_blocks (blocks : ∀ run ∈ runs, BlockRun run) :
    total runs = blockSize * (runs.flatMap runBlocks).length := by
  induction runs with
  | nil => rfl
  | cons run runs inductionHypothesis =>
    have size := (blocks run List.mem_cons_self).size_eq
    have rest := inductionHypothesis fun other member => blocks other (List.mem_cons_of_mem _ member)
    rw [total_cons, List.flatMap_cons, List.length_append, Nat.mul_add, ← rest, runBlocks,
      List.length_range']
    exact congrArg (· + total runs) size

theorem length_le_total {segments : List Segment} (separated : Separated segments) :
    segments.length ≤ total segments := by
  induction segments with
  | nil => exact Nat.zero_le _
  | cons segment segments inductionHypothesis =>
    have positive := separated.head_pos
    have rest := inductionHypothesis separated.tail
    rw [total_cons, List.length_cons]
    omega

/-- At most 32 runs fit into a zone: each takes a block and leaves one to the next. -/
theorem length_le_half (separated : Separated runs) (blocks : ∀ run ∈ runs, BlockRun run) :
    runs.length ≤ 32 := by
  have scaled := blockScale_separated separated blocks
  have bounded := blockScale_bounded blocks
  have count : (runs.map blockScale).length = runs.length := List.length_map _
  rw [← count]
  generalize runs.map blockScale = segments at *
  cases segments with
  | nil => simp
  | cons first others =>
    have room := scaled.total_le bounded
    have taken := length_le_total scaled
    simp only [List.length_cons, zoneSize, blockSize] at *
    omega

theorem blocks_nodup (separated : Separated runs) (blocks : ∀ run ∈ runs, BlockRun run) :
    (runs.flatMap runBlocks).Nodup := by
  rw [List.nodup_flatMap]
  refine ⟨fun run _ => List.nodup_range', ?_⟩
  refine separated.gaps.imp_of_mem fun {left right} leftMem rightMem gap => ?_
  intro b inLeft inRight
  have before := ((mem_runBlocks (blocks left leftMem)).mp inLeft).2
  have after := ((mem_runBlocks (blocks right rightMem)).mp inRight).1
  omega

theorem mem_blocks (blocks : ∀ run ∈ runs, BlockRun run) {b : Nat} :
    b ∈ runs.flatMap runBlocks ↔ Covers runs (blockSize * b) := by
  rw [List.mem_flatMap]
  constructor
  · rintro ⟨run, member, among⟩
    exact ⟨run, member, (mem_runBlocks (blocks run member)).mp among⟩
  · rintro ⟨run, member, inside⟩
    exact ⟨run, member, (mem_runBlocks (blocks run member)).mpr inside⟩

end Blocks

theorem readRuns_asked {disk zero scratch result : Nat → UInt8} {runs : List Segment}
    {results : Nat → Pread} {asked sum : Nat}
    (read : readRuns disk zero runs results asked scratch = (some sum, result)) :
    sum = asked + total runs := by
  induction runs generalizing results asked scratch with
  | nil =>
    simp only [readRuns, Prod.mk.injEq, Option.some.injEq] at read
    simp [read.1]
  | cons run runs inductionHypothesis =>
    cases outcome : results 0 with
    | fail => simp [readRuns, readRun, outcome] at read
    | count delivered =>
      simp only [readRuns, readRun, outcome] at read
      rw [inductionHypothesis read, total_cons, Nat.add_assoc]

/-- Every call is short of its request only by what lies past the end of file. -/
def ShortOnlyAtEnd (cfg : Config) (page : ScrapPage UInt8) (file : File) (results : Nat → Pread) :
    Prop :=
  ∀ i run delivered, (holeRequests cfg page)[i]? = some run → results i = .count delivered →
    file.available (page.base + run.offset) run.size ≤ delivered

/-- A hole byte that no call cut off short of the end of file is read as it is on disk. -/
theorem filled_hole {cfg : Config} {page : ScrapPage UInt8} {file : File} {results : Nat → Pread}
    {scratch filled : Nat → UInt8} {asked x : Nat} (wellFormed : page.WellFormed cfg.maxEntries)
    (read : readPageHoles cfg page file results scratch = (some asked, filled))
    (short : ShortOnlyAtEnd cfg page file results) (hole : page.Hole x) :
    filled x = file.byte (page.base + x) := by
  have runs : IsBlockRuns page.Hole (holeRequests cfg page) := scrapPageHoleRanges_runs wellFormed
  obtain ⟨run, member, inside⟩ := (runs.covers x).mpr ⟨x, hole, rfl⟩
  obtain ⟨i, bound, rfl⟩ := List.getElem_of_mem member
  have issued := List.getElem?_eq_getElem bound
  obtain ⟨delivered, outcome, value⟩ := readRuns_scratch runs.separated read issued inside
  rw [value]
  split
  · rfl
  · next cut =>
    -- What the call left out lies past the end of file and reads as zero there.
    have past := short i _ delivered issued outcome
    have low := inside.1
    have high := inside.2
    simp only [Segment.stop] at high
    generalize (holeRequests cfg page)[i] = run at *
    have zero : file.byte (page.base + run.offset + (x - run.offset)) = 0 :=
      file.byte_of_available_le (by omega) (past.trans (by omega))
    rw [← zero]
    congr 1
    omega

/-- The reads of a valid page, when no call fails: whole blocks inside the zone, exactly those with
a hole byte, each once, by at most 32 calls; `bytes_read` counts them, and a hole byte that no
call cut off short of the end of file is in the scratch zone as it is on disk. -/
theorem hole_reads_exact (cfg : Config) (page : ScrapPage UInt8)
    (wellFormed : page.WellFormed cfg.maxEntries) (file : File) (results : Nat → Pread)
    (served : ∀ i < (holeRequests cfg page).length, results i ≠ .fail) (scratch : Nat → UInt8) :
    ∃ bytesRead filled,
      readPageHoles cfg page file results scratch = (some bytesRead, filled) ∧
      (∀ run ∈ holeRequests cfg page, 0 < run.size ∧ BlockRun run) ∧
      (∀ b, b ∈ requestedBlocks cfg page ↔ ∃ x, page.Hole x ∧ x / blockSize = b) ∧
      (requestedBlocks cfg page).Nodup ∧
      (holeRequests cfg page).length ≤ 32 ∧
      bytesRead = 4096 * (requestedBlocks cfg page).length ∧
      bytesRead ≤ zoneSize ∧
      (ShortOnlyAtEnd cfg page file results →
        ∀ x, page.Hole x → filled x = file.byte (page.base + x)) := by
  have runs : IsBlockRuns page.Hole (holeRequests cfg page) := scrapPageHoleRanges_runs wellFormed
  have blocks : ∀ run ∈ holeRequests cfg page, BlockRun run :=
    holeRuns_blocks (scrapPageHoleRanges_bounded wellFormed)
  obtain ⟨bytesRead, filled, read⟩ := readRuns_succeeds (fun x => file.byte (page.base + x))
    (fun _ => 0) 0 scratch served
  have asked : bytesRead = total (holeRequests cfg page) := by
    rw [readRuns_asked read, Nat.zero_add]
  refine ⟨bytesRead, filled, read, fun run member => ⟨runs.separated.nonempty run member,
    blocks run member⟩, fun b => ?_, blocks_nodup runs.separated blocks,
    length_le_half runs.separated blocks, ?_, ?_, fun short x hole => ?_⟩
  · rw [requestedBlocks, mem_blocks blocks, runs.covers, Nat.mul_div_cancel_left b (by decide)]
  · rw [asked, total_eq_blocks blocks, requestedBlocks]
  · rw [asked]
    generalize holeRequests cfg page = requests at *
    cases requests with
    | nil => simp
    | cons first others =>
      have := runs.separated.total_le fun run member => (blocks run member).inside
      omega
  · exact filled_hole wellFormed read short hole

/-- A fresh page with its first byte written, over a file of 8192 bytes: one call, which returns
the 8192 bytes there are. -/
theorem hole_reads_exact_of_one :
    ∃ bytesRead filled,
      readPageHoles Config.standard oneBytePage (File.ofBytes 8192 fun _ => 7)
        (fun _ => .count 8192) (fun _ => 9) = (some bytesRead, filled) ∧
      bytesRead ≤ zoneSize ∧
      ∀ x, oneBytePage.Hole x →
        filled x = (File.ofBytes 8192 fun _ => 7).byte (oneBytePage.base + x) := by
  obtain ⟨bytesRead, filled, read, -, -, -, -, -, bounded, holes⟩ := hole_reads_exact
    Config.standard oneBytePage oneBytePage_wellFormed (File.ofBytes 8192 fun _ => 7)
    (fun _ => .count 8192) (fun _ _ => by simp) (fun _ => 9)
  refine ⟨bytesRead, filled, read, bounded, holes ?_⟩
  intro i run delivered _ outcome
  obtain rfl : 8192 = delivered := by simpa using outcome
  simp only [File.available, File.ofBytes]
  omega

end NoxDB

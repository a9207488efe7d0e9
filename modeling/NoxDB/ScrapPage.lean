import NoxDB.Config
import NoxDB.Library.Segments

/-! # Scrap pages

The data structure and the operations of `scrap_page.c`, up to the device calls:
the coalescing insert, the merge, the hole list, the widened reads and the hole
fill.  The header keeps its valid entries as a list, so `number` is the length of
that list; the slots of the C array past `number` are never read.  The data zone
is a function of the intra-page offset with values in an arbitrary type, which
later carries a byte together with where it came from.
-/

namespace NoxDB

open Library.Segments

/-- `scrap_entry_t` -/
abbrev ScrapEntry := Segment

/-- The `NOX_TAG_*` values of `hdr.tag`. -/
inductive Tag where
  | opened
  | full
  | sealed
  | flushing
deriving DecidableEq, Repr

/-- `scrap_header_t` -/
structure ScrapHeader where
  counter : Nat
  ssdId : Nat
  tag : Tag
  entries : List ScrapEntry
deriving DecidableEq, Repr

/-- `hdr.number` -/
def ScrapHeader.number (hdr : ScrapHeader) : Nat := hdr.entries.length

/-- `scrap_page_t`, without the two intrusive links and the lock. -/
structure ScrapPage (α : Type) where
  hdr : ScrapHeader
  data : Nat → α
  base : Nat
  inQueue : Bool
  detached : Bool

/-- `scrap_status_t` -/
inductive ScrapStatus where
  | ok
  | overflow
deriving DecidableEq, Repr

variable {α : Type}

/-- `scrap_page_alloc`: the zone keeps whatever the allocator handed out. -/
def scrapPageAlloc (base ssdId : Nat) (zone : Nat → α) : ScrapPage α where
  hdr := { counter := 0, ssdId, tag := .opened, entries := [] }
  data := zone
  base := base
  inQueue := false
  detached := false

/-- `scrap_page_is_full` -/
def scrapPageIsFull (page : ScrapPage α) : Bool := page.hdr.counter == zoneSize

/-! ## Merging a segment -/

/-- Phase (2) of `coalesce_insert`: absorb every segment that overlaps or touches
the range and return the grown range with what is left. -/
def absorb : List ScrapEntry → Nat → Nat → Nat × Nat × List ScrapEntry
  | [], newOff, newEnd => (newOff, newEnd, [])
  | entry :: rest, newOff, newEnd =>
    -- Touching counts as overlapping, so that no two neighbours stay apart.
    if entry.offset ≤ newEnd then
      absorb rest (if entry.offset < newOff then entry.offset else newOff)
        (if newEnd < entry.offset + entry.size then entry.offset + entry.size else newEnd)
    else
      (newOff, newEnd, entry :: rest)

/-- Phase (4): copy the remaining segments into the scratch array of
`NOX_MAX_ENTRIES + 1` slots, giving up when it has no free slot. -/
def copyRest (maxEntries : Nat) : List ScrapEntry → List ScrapEntry → Option (List ScrapEntry)
  | [], out => some out
  | entry :: rest, out =>
    if maxEntries + 1 ≤ out.length then none else copyRest maxEntries rest (out ++ [entry])

/-- `coalesce_insert` -/
def coalesceInsert (maxEntries : Nat) (hdr : ScrapHeader) (off len : Nat) :
    ScrapStatus × ScrapHeader :=
  let skipped := hdr.entries.takeWhile fun entry => entry.offset + entry.size < off
  let others := hdr.entries.dropWhile fun entry => entry.offset + entry.size < off
  let (newOff, newEnd, rest) := absorb others off (off + len)
  -- Phase (3): the grown segment needs a slot behind the skipped ones.
  if maxEntries + 1 ≤ skipped.length then
    (.overflow, hdr)
  else
    match copyRest maxEntries rest (skipped ++ [⟨newOff, newEnd - newOff⟩]) with
    | none => (.overflow, hdr)
    | some out =>
      -- One slot more than the header has is allowed on the way, not in the end.
      if maxEntries < out.length then
        (.overflow, hdr)
      else
        (.ok, { hdr with entries := out, counter := total out })

/-- `memcpy` of `len` elements to position `off`. -/
def copyAt (dst : Nat → α) (off len : Nat) (src : Nat → α) : Nat → α :=
  fun x => if off ≤ x ∧ x < off + len then src (x - off) else dst x

/-- `scrap_page_merge`: probe on a copy of the header, then commit. -/
def scrapPageMerge (maxEntries : Nat) (page : ScrapPage α) (buf : Nat → α) (intra len : Nat) :
    ScrapStatus × ScrapPage α :=
  match coalesceInsert maxEntries page.hdr intra len with
  | (.overflow, _) => (.overflow, page)
  | (.ok, probe) => (.ok, { page with data := copyAt page.data intra len buf, hdr := probe })

/-! ## Holes -/

/-- The cursor walk of `scrap_page_hole_ranges`, with `n` ranges already written. -/
def holeRangesFrom (max : Nat) : List ScrapEntry → Nat → Nat → List ScrapEntry
  | [], cursor, n =>
    if cursor < zoneSize ∧ n < max then [⟨cursor, zoneSize - cursor⟩] else []
  | entry :: rest, cursor, n =>
    if cursor < entry.offset then
      -- The output array is full: the walk stops.
      if max ≤ n then []
      else ⟨cursor, entry.offset - cursor⟩ ::
        holeRangesFrom max rest (entry.offset + entry.size) (n + 1)
    else
      holeRangesFrom max rest (entry.offset + entry.size) n

/-- `scrap_page_hole_ranges` -/
def scrapPageHoleRanges (page : ScrapPage α) (max : Nat) : List ScrapEntry :=
  holeRangesFrom max page.hdr.entries 0 0

/-- `a_off`: round a hole's start down to a block boundary. -/
def alignDown (offset : Nat) : Nat := offset - offset % blockSize

/-- `a_end`: round a hole's end up to a block boundary, clamped to the zone. -/
def alignUp (stop : Nat) : Nat :=
  if zoneSize < alignDown (stop + (blockSize - 1)) then zoneSize
  else alignDown (stop + (blockSize - 1))

/-- The loop of `scrap_page_read_holes`: the block-aligned runs it hands to
`read_run`, in order.  The second argument is the open run `(run_off, run_end)`. -/
def holeRuns : List ScrapEntry → Option (Nat × Nat) → List Segment
  | [], none => []
  | [], some (runOff, runEnd) => [⟨runOff, runEnd - runOff⟩]
  | hole :: holes, none =>
    holeRuns holes (some (alignDown hole.offset, alignUp (hole.offset + hole.size)))
  | hole :: holes, some (runOff, runEnd) =>
    -- Widened holes that meet share a run, so no block is read twice.
    if alignDown hole.offset ≤ runEnd then
      holeRuns holes (some (runOff,
        if runEnd < alignUp (hole.offset + hole.size) then alignUp (hole.offset + hole.size)
        else runEnd))
    else
      ⟨runOff, runEnd - runOff⟩ ::
        holeRuns holes (some (alignDown hole.offset, alignUp (hole.offset + hole.size)))

/-- What one `pread` does: fail, or deliver the first `count` bytes it was asked for. -/
inductive Pread where
  | fail
  | count (delivered : Nat)
deriving DecidableEq, Repr

/-- `read_run`: clear the run in the scratch zone, then read it.  `zero x` is what
the clearing leaves at intra-page offset `x` and `disk x` what the device delivers. -/
def readRun (disk zero : Nat → α) (run : Segment) (result : Pread) (scratch : Nat → α) :
    Bool × (Nat → α) :=
  let cleared := fun x => if run.Contains x then zero x else scratch x
  match result with
  | .fail => (false, cleared)
  | .count delivered =>
    (true, fun x => if run.Contains x ∧ x < run.offset + delivered then disk x else cleared x)

/-- Read the runs in order and stop at the first failure; on success return how
many bytes the device was asked for. -/
def readRuns (disk zero : Nat → α) :
    List Segment → (Nat → Pread) → Nat → (Nat → α) → Option Nat × (Nat → α)
  | [], _, asked, scratch => (some asked, scratch)
  | run :: runs, results, asked, scratch =>
    match readRun disk zero run (results 0) scratch with
    | (false, scratch) => (none, scratch)
    | (true, scratch) => readRuns disk zero runs (fun i => results (i + 1)) (asked + run.size) scratch

/-- `scrap_page_read_holes`: `none` is the return value `-1`, `some asked` is `0`
with `*bytes_read = asked`. -/
def scrapPageReadHoles (disk zero : Nat → α) (holes : List ScrapEntry) (results : Nat → Pread)
    (scratch : Nat → α) : Option Nat × (Nat → α) :=
  readRuns disk zero (holeRuns holes none) results 0 scratch

/-- `scrap_page_apply_holes`: copy what is still a hole and collapse the entries. -/
def scrapPageApplyHoles (maxEntries : Nat) (page : ScrapPage α) (scratch : Nat → α) :
    ScrapPage α :=
  let holes := scrapPageHoleRanges page (maxEntries + 1)
  { page with
    data := holes.foldl
      (fun data hole => copyAt data hole.offset hole.size fun i => scratch (hole.offset + i))
      page.data
    hdr := { page.hdr with entries := [⟨0, zoneSize⟩], counter := zoneSize } }

end NoxDB

import NoxDB.ScrapPage

/-! # The header as it is laid out

`scrap_page.c` keeps the entries of a page in an array of `NOX_MAX_ENTRIES` slots and
counts in words: `number` is one byte, `counter` and every offset are 32 bits, and
`coalesce_insert` builds its list in a scratch array with one slot more.  This module
translates the functions that touch the header with those widths.  An access outside an
array is `none`, so a result `some _` says that every access stayed inside.
-/

namespace NoxDB.Layout

open Library.Segments

/-- `scrap_entry_t` -/
structure Entry where
  offset : UInt32
  size : UInt32
deriving DecidableEq, Repr

/-- `scrap_header_t` in a build with `maxEntries` entries. -/
structure Header (maxEntries : Nat) where
  counter : UInt32
  ssdId : UInt16
  number : UInt8
  tag : Tag
  entries : Vector Entry maxEntries

/-- `scrap_page_t`; as in `ScrapPage`, without the links and the lock. -/
structure Page (maxEntries : Nat) (α : Type) where
  hdr : Header maxEntries
  data : Nat → α
  base : Nat
  inQueue : Bool
  detached : Bool

variable {maxEntries slots : Nat} {α : Type}

/-- `NOX_DATAZONE_SIZE` as the 32-bit word it is. -/
abbrev zoneWord : UInt32 := 262144

/-- `NOX_MAX_ENTRIES` as the 32-bit word it is. -/
abbrev maxWord (maxEntries : Nat) : UInt32 := .ofNat maxEntries

/-- The segment an entry stands for. -/
def Entry.segment (entry : Entry) : Segment := ⟨entry.offset.toNat, entry.size.toNat⟩

/-- The first `count` slots of an array. -/
def segments (array : Vector Entry slots) (count : Nat) : List Segment :=
  (array.toList.take count).map Entry.segment

/-- Read slot `i`. -/
def load (array : Vector Entry slots) (i : UInt32) : Option Entry := array[i.toNat]?

/-- Write slot `i`. -/
def store (array : Vector Entry slots) (i : UInt32) (entry : Entry) :
    Option (Vector Entry slots) :=
  if inside : i.toNat < slots then some (array.set i.toNat entry inside) else none

theorem sub_lt_of_lt {i bound : UInt32} (below : i < bound) :
    bound.toNat - (i + 1).toNat < bound.toNat - i.toNat := by
  have lt := UInt32.lt_iff_toNat_lt.mp below
  have top := bound.toNat_lt
  rw [UInt32.toNat_add, UInt32.toNat_one, Nat.mod_eq_of_lt (by omega)]
  omega

/-! ## `coalesce_insert` -/

/-- Phase (1): copy through the segments that end strictly before `newOff`. -/
def skip (hdr : Header maxEntries) (newOff : UInt32) (out : Vector Entry slots) (n i : UInt32) :
    Option (Vector Entry slots × UInt32 × UInt32) :=
  if _below : i < hdr.number.toUInt32 then
    match load hdr.entries i with
    | none => none
    | some entry =>
      if entry.offset + entry.size < newOff then
        match store out n entry with
        | none => none
        | some out => skip hdr newOff out (n + 1) (i + 1)
      else
        some (out, n, i)
  else
    some (out, n, i)
termination_by hdr.number.toUInt32.toNat - i.toNat
decreasing_by exact sub_lt_of_lt _below

/-- Phase (2): absorb every segment that overlaps or touches the range. -/
def absorb (hdr : Header maxEntries) (newOff newEnd i : UInt32) :
    Option (UInt32 × UInt32 × UInt32) :=
  if _below : i < hdr.number.toUInt32 then
    match load hdr.entries i with
    | none => none
    | some entry =>
      if entry.offset ≤ newEnd then
        absorb hdr (if entry.offset < newOff then entry.offset else newOff)
          (if newEnd < entry.offset + entry.size then entry.offset + entry.size else newEnd)
          (i + 1)
      else
        some (newOff, newEnd, i)
  else
    some (newOff, newEnd, i)
termination_by hdr.number.toUInt32.toNat - i.toNat
decreasing_by exact sub_lt_of_lt _below

/-- Phase (4): copy the remaining segments.  The inner `none` is `SCRAP_OVERFLOW`. -/
def copyRest (hdr : Header maxEntries) (out : Vector Entry slots) (n i : UInt32) :
    Option (Option (Vector Entry slots × UInt32)) :=
  if _below : i < hdr.number.toUInt32 then
    if maxWord maxEntries + 1 ≤ n then
      some none
    else
      match load hdr.entries i with
      | none => none
      | some entry =>
        match store out n entry with
        | none => none
        | some out => copyRest hdr out (n + 1) (i + 1)
  else
    some (some (out, n))
termination_by hdr.number.toUInt32.toNat - i.toNat
decreasing_by exact sub_lt_of_lt _below

/-- The commit: copy the scratch array back and add up the sizes. -/
def commit (out : Vector Entry slots) (n : UInt32) (entries : Vector Entry maxEntries)
    (sum k : UInt32) : Option (Vector Entry maxEntries × UInt32) :=
  if _below : k < n then
    match load out k with
    | none => none
    | some entry =>
      match store entries k entry with
      | none => none
      | some entries => commit out n entries (sum + entry.size) (k + 1)
  else
    some (entries, sum)
termination_by n.toNat - k.toNat
decreasing_by exact sub_lt_of_lt _below

/-- `coalesce_insert`; `scratch` is what the array `out` holds before it is written. -/
def coalesceInsert (scratch : Vector Entry (maxEntries + 1)) (hdr : Header maxEntries)
    (off len : UInt32) : Option (ScrapStatus × Header maxEntries) := do
  let (out, n, i) ← skip hdr off scratch 0 0
  let (newOff, newEnd, i) ← absorb hdr off (off + len) i
  if maxWord maxEntries + 1 ≤ n then
    return (.overflow, hdr)
  let out ← store out n ⟨newOff, newEnd - newOff⟩
  match ← copyRest hdr out (n + 1) i with
  | none => return (.overflow, hdr)
  | some (out, n) =>
    if maxWord maxEntries < n then
      return (.overflow, hdr)
    let (entries, sum) ← commit out n hdr.entries 0 0
    return (.ok, { hdr with entries, number := n.toUInt8, counter := sum })

/-! ## The page operations -/

/-- `scrap_page_alloc`: the header is cleared, the zone keeps what the allocator handed out. -/
def scrapPageAlloc (base : Nat) (ssdId : UInt16) (zone : Nat → α) : Page maxEntries α where
  hdr := { counter := 0, ssdId, number := 0, tag := .opened, entries := .replicate _ ⟨0, 0⟩ }
  data := zone
  base := base
  inQueue := false
  detached := false

/-- `scrap_page_is_full` -/
def scrapPageIsFull (page : Page maxEntries α) : Bool := page.hdr.counter == zoneWord

/-- `memcpy` into the data zone. -/
def copyIn (data : Nat → α) (off len : UInt32) (src : Nat → α) : Option (Nat → α) :=
  if off.toNat + len.toNat ≤ zoneSize then some (copyAt data off.toNat len.toNat src) else none

/-- `scrap_page_merge`: probe on a copy of the header, then commit. -/
def scrapPageMerge (scratch : Vector Entry (maxEntries + 1)) (page : Page maxEntries α)
    (buf : Nat → α) (intra len : UInt32) : Option (ScrapStatus × Page maxEntries α) := do
  match ← coalesceInsert scratch page.hdr intra len with
  | (.overflow, _) => return (.overflow, page)
  | (.ok, probe) =>
    let data ← copyIn page.data intra len buf
    return (.ok, { page with data, hdr := probe })

/-- The cursor walk of `scrap_page_hole_ranges`. -/
def holeRangesFrom (hdr : Header maxEntries) (max : UInt32) (out : Vector Entry slots)
    (n cursor k : UInt32) : Option (Vector Entry slots × UInt32) :=
  if _below : k < hdr.number.toUInt32 then
    match load hdr.entries k with
    | none => none
    | some entry =>
      if cursor < entry.offset then
        if max ≤ n then
          some (out, n)
        else
          match store out n ⟨cursor, entry.offset - cursor⟩ with
          | none => none
          | some out =>
            holeRangesFrom hdr max out (n + 1) (entry.offset + entry.size) (k + 1)
      else
        holeRangesFrom hdr max out n (entry.offset + entry.size) (k + 1)
  else if cursor < zoneWord ∧ n < max then
    match store out n ⟨cursor, zoneWord - cursor⟩ with
    | none => none
    | some out => some (out, n + 1)
  else
    some (out, n)
termination_by hdr.number.toUInt32.toNat - k.toNat
decreasing_by
  · exact sub_lt_of_lt _below
  · exact sub_lt_of_lt _below

/-- `scrap_page_hole_ranges`: the ranges it wrote into `out` and how many. -/
def scrapPageHoleRanges (page : Page maxEntries α) (out : Vector Entry slots) (max : UInt32) :
    Option (Vector Entry slots × UInt32) :=
  holeRangesFrom page.hdr max out 0 0 0

/-- The copy loop of `scrap_page_apply_holes`. -/
def applyFrom (holes : Vector Entry slots) (nh : UInt32) (scratch : Nat → α) (data : Nat → α)
    (i : UInt32) : Option (Nat → α) :=
  if _below : i < nh then
    match load holes i with
    | none => none
    | some hole =>
      match copyIn data hole.offset hole.size fun j => scratch (hole.offset.toNat + j) with
      | none => none
      | some data => applyFrom holes nh scratch data (i + 1)
  else
    some data
termination_by nh.toNat - i.toNat
decreasing_by exact sub_lt_of_lt _below

/-- `scrap_page_apply_holes`; `holes` is what its array holds before it is written. -/
def scrapPageApplyHoles (holes : Vector Entry (maxEntries + 1)) (page : Page maxEntries α)
    (scratch : Nat → α) : Option (Page maxEntries α) := do
  let (holes, nh) ← scrapPageHoleRanges page holes (maxWord maxEntries + 1)
  let data ← applyFrom holes nh scratch page.data 0
  let entries ← store page.hdr.entries 0 ⟨0, zoneWord⟩
  return { page with
    data
    hdr := { page.hdr with entries, number := 1, counter := zoneWord } }

/-- `scrap_page_fill_holes`: `true` is the return value `0`.  `zone` is what `posix_memalign` handed
out, and `none` when it failed; the other arguments are as for `scrap_page_read_holes`. -/
def scrapPageFillHoles (stack applyStack : Vector Entry (maxEntries + 1)) (page : Page maxEntries α)
    (disk zero : Nat → α) (results : Nat → Pread) (zone : Option (Nat → α)) :
    Option (Bool × Page maxEntries α) := do
  let (holes, nh) ← scrapPageHoleRanges page stack (maxWord maxEntries + 1)
  if nh = 0 then
    return (true, page)
  match zone with
  | none => return (false, page)
  | some scratch =>
    match scrapPageReadHoles disk zero (segments holes nh.toNat) results scratch with
    | (none, _) => return (false, page)
    | (some _, scratch) =>
      let page ← scrapPageApplyHoles applyStack page scratch
      return (true, page)

end NoxDB.Layout

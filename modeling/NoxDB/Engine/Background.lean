import NoxDB.Engine.Foreground

/-! # The two flush stages

`stage1_loop`, `stage2_loop`, `stage2_collect` and `stage2_detach` of `otflush.c`.
The page locks of the two stages guard short sections without blocking calls, so
each such section is one step that needs the lock free.  Every device call is a
step of its own with an outcome chosen by the device.
-/

namespace NoxDB

open Library.Segments

variable {n : Nat}

/-- The zones of a batch as one gather buffer. -/
def gather (zones : List (Nat → Cell)) (k : Nat) : Cell :=
  match zones[k / zoneSize]? with
  | some zone => zone (k % zoneSize)
  | none => ⟨0, .uninit⟩

namespace Engine

/-- `ssd_is_busy` -/
def ssdIsBusy (s : Engine n) : Bool := bcountBusyThreshold ≤ s.bcount

/-- `wb_guard_enter` -/
def wbGuardEnter (s : Engine n) (base : Nat) : Engine n :=
  { s with wb := Function.update s.wb (wbSlot base) (s.wb (wbSlot base) + 1) }

/-- `wb_guard_leave` -/
def wbGuardLeave (s : Engine n) (base : Nat) : Engine n :=
  { s with
    wb := if 0 < s.wb (wbSlot base) then
        Function.update s.wb (wbSlot base) (s.wb (wbSlot base) - 1)
      else s.wb }

/-! ## Stage-1 -/

/-- The section under the page lock after the pop. -/
def stage1Inspect (cfg : Config) (s : Engine n) (p : PageId) : Engine n :=
  -- Full already: forwarded without a read, still in a queue and still counted in `pending`.
  if scrapPageIsFull (s.pages p) then
    { s with s1 := .forwardEnter p }
  -- Back to the tail of Queue-1; `wait_not_busy` follows.
  else if s.ssdIsBusy then
    { s with s1 := .busyPush p }
  else
    { s with
      -- The hole list is a snapshot: the lock is dropped before the read.
      s1 := .guardWait p (scrapPageHoleRanges (s.pages p) (cfg.maxEntries + 1))
      log := .statEntriesAtStage1 p (s.pages p).hdr.number :: s.log }

/-- The section under the page lock after the read. -/
def stage1Finish (cfg : Config) (s : Engine n) (p : PageId) (ok : Bool) : Engine n :=
  if ok then
    -- The holes are derived again, so a merge that came in during the read wins.
    let page := scrapPageApplyHoles cfg.maxEntries (s.pages p) s.scratch
    { s.setPage p { page with hdr := { page.hdr with tag := .full } } with s1 := .fillEnter p }
  else
    -- Dropped: it leaves the queues for good, but neither the index nor the memory.
    { s.setPage p { s.pages p with inQueue := false } with ioErr := true, s1 := .dropDec }

def stage1Step (cfg : Config) (s : Engine n) : Option (Engine n) :=
  match s.s1 with
  | .idle =>
    match s.q1 with
    | p :: rest => some { s with q1 := rest, s1 := .popped p }
    | [] => if s.shut1 then some { s with s1 := .exited } else none
  | .popped p => if s.lock p = none then some (stage1Inspect cfg s p) else none
  | .forwardEnter p => some { s.wbGuardEnter (s.pages p).base with s1 := .forwardPush p }
  | .forwardPush p => some { s with q2 := s.q2 ++ [p], s1 := .idle }
  | .busyPush p => some { s with q1 := s.q1 ++ [p], s1 := .waitNotBusy }
  | .waitNotBusy => some { s with s1 := .idle }
  -- `wb_guard_wait`: no page that shares the slot may still be on its way to the device.
  | .guardWait p holes =>
    if s.wb (wbSlot (s.pages p).base) = 0 then some { s with s1 := .readStart p holes } else none
  | .readStart p holes =>
    some { s with bcount := s.bcount + zoneSize, s1 := .reading p (holeRuns holes none) }
  | .reading p [] => some { s with bcount := s.bcount - zoneSize, s1 := .finish p true }
  -- The device answers first, in `preadStep`.
  | .reading _ (_ :: _) => none
  | .readFailed p => some { s with bcount := s.bcount - zoneSize, s1 := .finish p false }
  | .finish p ok => if s.lock p = none then some (stage1Finish cfg s p ok) else none
  | .dropDec => some { s with pending := s.pending - 1, s1 := .idle }
  | .fillEnter p => some { s.wbGuardEnter (s.pages p).base with s1 := .fillPush p }
  | .fillPush p => some { s with q2 := s.q2 ++ [p], s1 := .idle }
  | .exited => none

/-- What the device delivers to Stage-1 for intra-page offset `x` of page `p`. -/
def deviceCell (s : Engine n) (p : PageId) (x : Nat) : Cell :=
  ⟨s.file.byte ((s.pages p).base + x), .device p ((s.pages p).base + x)⟩

/-- What clearing leaves at intra-page offset `x` before the read for page `p`. -/
def zeroCell (s : Engine n) (p : PageId) (x : Nat) : Cell :=
  ⟨0, .zero p ((s.pages p).base + x)⟩

/-- The next `pread` of `scrap_page_read_holes`. -/
def preadStep (s : Engine n) (result : Pread) : Option (Engine n) :=
  match s.s1 with
  | .reading p (run :: runs) =>
    match readRun (s.deviceCell p) (s.zeroCell p) run result s.scratch with
    | (false, scratch) => some { s with scratch := scratch, s1 := .readFailed p }
    | (true, scratch) => some { s with scratch := scratch, s1 := .reading p runs }
  | _ => none

/-! ## Stage-2 -/

/-- `scrap_page_is_full(nx) || nx->hdr.tag == NOX_TAG_FULL` -/
def ready (s : Engine n) (p : PageId) : Bool :=
  scrapPageIsFull (s.pages p) || (s.pages p).hdr.tag == .full

/-- The base the next page of a batch must have. -/
def wantedBase (s : Engine n) (batch : List PageId) : Nat :=
  ((s.pages (batch.headD 0)).base + batch.length * zoneSize) % word

/-- The index half of `stage2_detach`. -/
def stage2Unlink (s : Engine n) (p : PageId) : Engine n :=
  if (s.pages p).detached then s
  else (s.detachIf (s.pages p).base (s.addr p)).setPage p { s.pages p with detached := true }

def stage2Step (s : Engine n) : Option (Engine n) :=
  match s.s2 with
  | .idle =>
    match s.q2 with
    | p :: rest => some { s with q2 := rest, s2 := .popped p }
    | [] => if s.shut2 then some { s with s2 := .exited } else none
  | .popped p =>
    -- `ssd_is_busy` is evaluated once for a batch, before it is collected.
    if s.ssdIsBusy then some { s with s2 := .busyPush p } else some { s with s2 := .collect [p] }
  | .busyPush p => some { s with q2 := s.q2 ++ [p], s2 := .waitNotBusy }
  | .waitNotBusy => some { s with s2 := .idle }
  | .collect batch =>
    if batch.length < pwritevMaxIov then
      match s.q2 with
      | next :: rest =>
        -- `nox_queue_pop_if_base` looks at the head of the queue only.
        if (s.pages next).base = s.wantedBase batch then
          some { s with q2 := rest, s2 := .check batch next }
        else
          some { s with s2 := .detaching [] batch }
      | [] => some { s with s2 := .detaching [] batch }
    else
      some { s with s2 := .detaching [] batch }
  | .check batch next =>
    -- The header is read under the page lock: the page is still in the index.
    if s.lock next = none then
      if s.ready next then some { s with s2 := .collect (batch ++ [next]) }
      else some { s with s2 := .pushBack batch next }
    else
      none
  | .pushBack batch next => some { s with q2 := s.q2 ++ [next], s2 := .detaching [] batch }
  | .detaching done [] => some { s with s2 := .writeStart done }
  | .detaching done (p :: todo) =>
    -- The shard lock is taken without the page lock, and not at all for a detached page.
    if (s.pages p).detached ∨ s.shard (shardOf (s.pages p).base) = none then
      some { s.stage2Unlink p with s2 := .tagging done p todo }
    else
      none
  | .tagging done p todo =>
    if s.lock p = none then
      some { s.setPage p { s.pages p with
          hdr := { (s.pages p).hdr with tag := .flushing }
          inQueue := false } with
        s2 := .detaching (done ++ [p]) todo }
    else
      none
  | .writeStart batch =>
    some { s with
      -- The bracket covers the whole batch, retries included.
      bcount := s.bcount + batch.length * zoneSize
      s2 := .writing batch PwritevState.init }
  | .writing _ _ => none
  | .written batch ok =>
    some { s with bcount := s.bcount - batch.length * zoneSize, s2 := .latch batch ok }
  -- A failed writeback is latched and its pages are freed all the same.
  | .latch batch ok => some { s with ioErr := s.ioErr || !ok, s2 := .freeing batch }
  | .freeing [] => some { s with s2 := .idle }
  | .freeing (p :: batch) =>
    some { s with
      freed := Function.update s.freed p true
      watermark := { s.watermark with live := s.watermark.live - 1 }
      -- `done_base` is read before the free.
      s2 := .leaving p (s.pages p).base batch
      log := .freed p :: s.log }
  | .leaving _ doneBase batch => some { s.wbGuardLeave doneBase with s2 := .decrement batch }
  | .decrement batch => some { s with pending := s.pending - 1, s2 := .freeing batch }
  | .exited => none

/-- The next `pwritev` of `io_direct_pwritev_all`, for the pages from `st.i` on. -/
def pwritevStep (s : Engine n) (result : IoResult) : Option (Engine n) :=
  match s.s2 with
  | .writing batch st =>
    let rest := batch.drop st.i
    let zones := rest.map fun p => (s.pages p).data
    let offset := (s.pages (batch.headD 0)).base + st.i * zoneSize
    -- Whatever the device reports, the bytes that landed are in the file.
    if result.Fits offset (rest.length * zoneSize) then
      let after := pwritevAfter (batch.map fun _ => zoneSize) st result
      let completed :=
        match after with
        | .again next => rest.take (next.i - st.i)
        | .done (some _) => rest
        | .done none => []
      some { s with
        file := s.file.pwrite offset result.landed fun k => (gather zones k).val
        s2 := match after with
          | .again next => .writing batch next
          | .done total => .written batch (total == some (batch.length * zoneSize))
        log := (completed.map Event.wrote).reverse ++ .issued offset rest zones :: s.log }
    else
      none
  | _ => none

end Engine

end NoxDB

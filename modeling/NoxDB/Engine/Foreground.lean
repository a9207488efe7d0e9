import NoxDB.Engine.State

/-! # Foreground steps

`nox_write` and `scrap_write_chunk`, one visible action at a time.  What happens
under a lock without taking another one is a single step; the shard lock is held
across steps only while its holder waits for a page lock, and the page lock from
`page_index_get_or_create` to the unlock.
-/

namespace NoxDB

variable {n : Nat}

namespace Engine

def setFg (s : Engine n) (t : Fin n) (f : Fg) : Engine n :=
  { s with fg := Function.update s.fg t f }

def setPage (s : Engine n) (p : PageId) (page : ScrapPage Cell) : Engine n :=
  { s with pages := Function.update s.pages p page }

def record (s : Engine n) (event : Event n) : Engine n := { s with log := event :: s.log }

/-- The shard lock that guards the chain of `base`. -/
def shardOf (base : Nat) : Nat := piShard (piHash base)

/-- The chain walk of `page_index_get_or_create`. -/
def find (s : Engine n) (base : Nat) : Option PageId :=
  (s.buckets (piHash base)).find? fun p => (s.pages p).base == base

/-- `page_index_detach_if`, under its shard lock: unlink the page at address `expect`. -/
def detachIf (s : Engine n) (base expect : Nat) : Engine n :=
  { s with
    buckets := Function.update s.buckets (piHash base)
      ((s.buckets (piHash base)).eraseP fun p => s.addr p == expect) }

/-- The page `detachIf` unlinks. -/
def detachTarget (s : Engine n) (base expect : Nat) : Option PageId :=
  (s.buckets (piHash base)).find? fun p => s.addr p == expect

/-- One step inside `otflush_enqueue_partial` or `otflush_enqueue_full`. -/
def enqueueStep (s : Engine n) (p : PageId) : Enqueue → Engine n × Option Enqueue
  | .partialInc => ({ s with pending := s.pending + 1 }, some .partialPush)
  | .partialPush => ({ s with q1 := s.q1 ++ [p] }, none)
  | .fullInc => ({ s with pending := s.pending + 1 }, some .fullEnter)
  | .fullEnter =>
    ({ s with
        wb := Function.update s.wb (wbSlot (s.pages p).base)
          (s.wb (wbSlot (s.pages p).base) + 1) }, some .fullPush)
  | .fullPush => ({ s with q2 := s.q2 ++ [p] }, none)

end Engine

/-- `otflush_enqueue_partial` up to the test of `in_queue`. -/
def enqueuePartial (page : ScrapPage Cell) : ScrapPage Cell × Option Enqueue :=
  if page.inQueue then (page, none) else ({ page with inQueue := true }, some .partialInc)

/-- `otflush_enqueue_full` up to the test of `in_queue`. -/
def enqueueFull (page : ScrapPage Cell) : ScrapPage Cell × Option Enqueue :=
  let page := { page with hdr := { page.hdr with tag := .full } }
  if page.inQueue then (page, none) else ({ page with inQueue := true }, some .fullInc)

/-- What the critical section of `scrap_write_chunk` decided. -/
structure Decision where
  page : ScrapPage Cell
  enqueue : Option Enqueue
  after : After
  /-- `scrap_page_merge` returned `SCRAP_OK`. -/
  merged : Bool
  /-- The page was sealed here. -/
  sealedNow : Bool

/-- The critical section of `scrap_write_chunk`, from the test for `NOX_TAG_SEALED`
to the enqueue decision. -/
def chunkDecision (cfg : Config) (page : ScrapPage Cell) (created : Bool) (cells : Nat → Cell)
    (intra len : Nat) : Decision :=
  if page.hdr.tag = .sealed then
    -- Found sealed: somebody else is already taking it out.
    ⟨page, none, .retry, false, false⟩
  else
    match scrapPageMerge cfg.maxEntries page cells intra len with
    -- Out of entries: seal the page, queue it if it is in no queue, and retry on another one.
    | (.overflow, page) =>
      let (page, enqueue) := enqueuePartial { page with hdr := { page.hdr with tag := .sealed } }
      ⟨page, enqueue, .retry, false, true⟩
    | (.ok, page) =>
      -- Fully assembled: straight to Queue-2, unless a queue has it already.
      if scrapPageIsFull page then
        let (page, enqueue) := enqueueFull page
        ⟨page, enqueue, .ret, true, false⟩
      -- A page goes to Queue-1 when it is created, by its creator.
      else if created then
        let (page, enqueue) := enqueuePartial page
        ⟨page, enqueue, .ret, true, false⟩
      else
        ⟨page, none, .ret, true, false⟩

/-- What the critical section adds to the history. -/
def chunkEvents (t : Fin n) (p : PageId) (call : Call) (done : Nat) (decision : Decision) :
    List (Event n) :=
  (if scrapPageIsFull decision.page && decision.merged then
      [.statPageFull p decision.page.hdr.number] else [] : List (Event n)) ++
  (if decision.merged then
      [.merged p (call.cur done) (call.chunk done) (call.cells done)] else [] : List (Event n)) ++
  (if decision.after = .retry then [.sawSealed t p] else [] : List (Event n)) ++
  (if decision.sealedNow then [.sealedByOverflow p] else [] : List (Event n))

/-- Where the thread goes after the critical section. -/
def Decision.next (decision : Decision) (p : PageId) : ChunkPc :=
  match decision.enqueue with
  | some e => .enqueue p e decision.after
  | none => .unlock p decision.after

namespace Engine

/-- The end of one pass of the loop of `nox_write`. -/
def finishChunk (s : Engine n) (t : Fin n) (call : Call) (done : Nat) : Engine n :=
  if done + call.chunk done < call.size then
    s.setFg t (.scrap call (done + call.chunk done) .gate)
  else
    (s.setFg t .idle).record (.returned t call .ok)

/-- A thread inside `scrap_write_chunk` takes a step that needs no answer from the
environment. -/
def chunkStep (cfg : Config) (s : Engine n) (t : Fin n) (call : Call) (done : Nat) :
    ChunkPc → Option (Engine n)
  | .gate =>
    -- `nox_watermark_wait`, the fast path.
    if s.watermark.armed = false ∨ s.watermark.live < s.watermark.high then
      some (s.setFg t (.scrap call done .lookup))
    else
      some { s.setFg t (.scrap call done .parked) with
        watermark := { s.watermark with blockedCount := (s.watermark.blockedCount + 1) % word } }
  | .parked =>
    -- Released at the low mark only.
    if s.watermark.armed = false ∨ s.watermark.live ≤ s.watermark.low then
      some (s.setFg t (.scrap call done .lookup))
    else
      none
  | .lookup =>
    if s.shard (shardOf (call.base done)) = none then
      match s.find (call.base done) with
      | some p =>
        some { s.setFg t (.scrap call done (.lockPage p)) with
          shard := Function.update s.shard (shardOf (call.base done)) (some t) }
      -- Nothing found: the allocator answers, in `allocStep` or `oomStep`.
      | none => none
    else
      none
  | .lockPage p =>
    -- Lock coupling: the shard lock goes only once the page lock is held.
    if s.lock p = none then
      some { s.setFg t (.scrap call done (.held p false)) with
        lock := Function.update s.lock p (some (.fg t))
        shard := Function.update s.shard (shardOf (call.base done)) none }
    else
      none
  | .held p created =>
    -- Up to the pushes nothing else is taken or awaited, so this is one step.
    let decision := chunkDecision cfg (s.pages p) created (call.cells done) (call.intra done)
      (call.chunk done)
    some { (s.setPage p decision.page).setFg t (.scrap call done (decision.next p)) with
      log := chunkEvents t p call done decision ++ s.log }
  | .enqueue p e after =>
    match s.enqueueStep p e with
    | (s, some e) => some (s.setFg t (.scrap call done (.enqueue p e after)))
    | (s, none) => some (s.setFg t (.scrap call done (.unlock p after)))
  | .unlock p .ret =>
    some (finishChunk { s with lock := Function.update s.lock p none } t call done)
  -- From here to the detach the thread holds nothing but the pointer.
  | .unlock p .retry =>
    some { s.setFg t (.scrap call done (.detach p)) with
      lock := Function.update s.lock p none }
  | .detach p =>
    if s.shard (shardOf (call.base done)) = none then
      -- The comparison is by address, whatever page lives there by now.
      some { (s.detachIf (call.base done) (s.addr p)).setFg t (.scrap call done .gate) with
        log := ((s.detachTarget (call.base done) (s.addr p)).toList.map (.unlinked t)) ++ s.log }
    else
      none

def fgStep (cfg : Config) (s : Engine n) (t : Fin n) : Option (Engine n) :=
  match s.fg t with
  | .scrap call done pc => chunkStep cfg s t call done pc
  | _ => none

/-- The application calls `nox_write` on thread `t`. -/
def noxWrite (s : Engine n) (t : Fin n) (call : Call) : Option (Engine n) :=
  match s.fg t, s.closer with
  | .idle, .running =>
    if call.size = 0 then some (s.record (.returned t call .ok))
    else if call.isDirect then some (s.setFg t (.direct call))
    else some (s.setFg t (.scrap call 0 .gate))
  | _, _ => none

/-- `page_index_get_or_create` finds nothing and `scrap_page_alloc` returns a page at
address `address` whose zone holds `zone`.  An address in use is never returned. -/
def allocStep (s : Engine n) (t : Fin n) (address : Nat) (zone : Nat → UInt8) :
    Option (Engine n) :=
  match s.fg t with
  | .scrap call done .lookup =>
    -- The new page is linked and locked before the shard lock is dropped.
    if s.shard (shardOf (call.base done)) = none ∧ s.find (call.base done) = none ∧
        ∀ q < s.created, s.freed q = false → s.addr q ≠ address then
      some { s with
        pages := Function.update s.pages s.created
          (scrapPageAlloc (call.base done) 0 fun x => ⟨zone x, .uninit⟩)
        addr := Function.update s.addr s.created address
        lock := Function.update s.lock s.created (some (.fg t))
        created := s.created + 1
        buckets := Function.update s.buckets (piHash (call.base done))
          (s.created :: s.buckets (piHash (call.base done)))
        watermark := { s.watermark with live := s.watermark.live + 1 }
        fg := Function.update s.fg t (.scrap call done (.held s.created true))
        log := .created t s.created :: s.log }
    else
      none
  | _ => none

/-- An allocation fails: the page's, or the bounce buffer of a direct write. -/
def oomStep (s : Engine n) (t : Fin n) : Option (Engine n) :=
  match s.fg t with
  | .scrap call done .lookup =>
    if s.shard (shardOf (call.base done)) = none ∧ s.find (call.base done) = none then
      some ((s.setFg t .idle).record (.returned t call .enomem))
    else
      none
  | .direct call => some ((s.setFg t .idle).record (.returned t call .enomem))
  | _ => none

/-- The `pwrite` of `io_direct_pwrite`. -/
def pwriteStep (s : Engine n) (t : Fin n) (result : IoResult) : Option (Engine n) :=
  match s.fg t with
  | .direct call =>
    if result.Fits call.offset call.size then
      some { s with
        file := s.file.pwrite call.offset result.landed call.buf
        fg := Function.update s.fg t .idle
        log := .returned t call (if result = .ok call.size then .ok else .eio) ::
          .wroteDirect call.offset result.landed call.buf :: s.log }
    else
      none
  | _ => none

end Engine

end NoxDB

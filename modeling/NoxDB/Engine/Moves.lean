import NoxDB.Engine.Step

/-! # What a step can do

The step function read backwards: one constructor for each way a thread can move,
with the guard it passed and the state it leaves.  Every invariant is proved by
cases on these moves; the step function itself is unfolded only here.
-/

namespace NoxDB

open Library.Segments
open Function (update)

variable {n : Nat}

/-- The moves of the foreground. -/
inductive FgMove (cfg : Config) (s : Engine n) : Label n → Engine n → Prop where
  | callZero {t call} (position : s.fg t = .idle) (running : s.closer = .running)
      (empty : call.size = 0) :
      FgMove cfg s (.call t call) { s with log := .returned t call .ok :: s.log }
  | callDirect {t call} (position : s.fg t = .idle) (running : s.closer = .running)
      (nonempty : call.size ≠ 0) (direct : call.isDirect = true) :
      FgMove cfg s (.call t call) { s with fg := update s.fg t (.direct call) }
  | callScrap {t call} (position : s.fg t = .idle) (running : s.closer = .running)
      (nonempty : call.size ≠ 0) (scrap : call.isDirect = false) :
      FgMove cfg s (.call t call) { s with fg := update s.fg t (.scrap call 0 .gate) }
  | gatePass {t call done} (position : s.fg t = .scrap call done .gate)
      (room : s.watermark.armed = false ∨ s.watermark.live < s.watermark.high) :
      FgMove cfg s (.fg t) { s with fg := update s.fg t (.scrap call done .lookup) }
  | gatePark {t call done} (position : s.fg t = .scrap call done .gate)
      (noRoom : ¬ (s.watermark.armed = false ∨ s.watermark.live < s.watermark.high)) :
      FgMove cfg s (.fg t)
        { s with
          fg := update s.fg t (.scrap call done .parked)
          watermark := { s.watermark with blockedCount := (s.watermark.blockedCount + 1) % word } }
  | parkedPass {t call done} (position : s.fg t = .scrap call done .parked)
      (released : s.watermark.armed = false ∨ s.watermark.live ≤ s.watermark.low) :
      FgMove cfg s (.fg t) { s with fg := update s.fg t (.scrap call done .lookup) }
  | lookupFound {t call done p} (position : s.fg t = .scrap call done .lookup)
      (free : s.shard (Engine.shardOf (call.base done)) = none)
      (found : s.find (call.base done) = some p) :
      FgMove cfg s (.fg t)
        { s with
          fg := update s.fg t (.scrap call done (.lockPage p))
          shard := update s.shard (Engine.shardOf (call.base done)) (some t) }
  | alloc {t call done address zone} (position : s.fg t = .scrap call done .lookup)
      (free : s.shard (Engine.shardOf (call.base done)) = none)
      (absent : s.find (call.base done) = none)
      (unused : ∀ q < s.created, s.freed q = false → s.addr q ≠ address) :
      FgMove cfg s (.alloc t address zone)
        { s with
          pages := update s.pages s.created
            (scrapPageAlloc (call.base done) 0 fun x => ⟨zone x, .uninit⟩)
          addr := update s.addr s.created address
          lock := update s.lock s.created (some (.fg t))
          created := s.created + 1
          buckets := update s.buckets (piHash (call.base done))
            (s.created :: s.buckets (piHash (call.base done)))
          watermark := { s.watermark with live := s.watermark.live + 1 }
          fg := update s.fg t (.scrap call done (.held s.created true))
          log := .created t s.created :: s.log }
  | oomPage {t call done} (position : s.fg t = .scrap call done .lookup)
      (free : s.shard (Engine.shardOf (call.base done)) = none)
      (absent : s.find (call.base done) = none) :
      FgMove cfg s (.oom t)
        { s with fg := update s.fg t .idle, log := .returned t call .enomem :: s.log }
  | oomDirect {t call} (position : s.fg t = .direct call) :
      FgMove cfg s (.oom t)
        { s with fg := update s.fg t .idle, log := .returned t call .enomem :: s.log }
  | lockPage {t call done p} (position : s.fg t = .scrap call done (.lockPage p))
      (free : s.lock p = none) :
      FgMove cfg s (.fg t)
        { s with
          fg := update s.fg t (.scrap call done (.held p false))
          lock := update s.lock p (some (.fg t))
          shard := update s.shard (Engine.shardOf (call.base done)) none }
  | decide {t call done p created} (position : s.fg t = .scrap call done (.held p created))
      (decision : Decision)
      (decided : decision = chunkDecision cfg (s.pages p) created (call.cells done)
        (call.intra done) (call.chunk done)) :
      FgMove cfg s (.fg t)
        { s with
          pages := update s.pages p decision.page
          fg := update s.fg t (.scrap call done (decision.next p))
          log := chunkEvents t p call done decision ++ s.log }
  | partialInc {t call done p after}
      (position : s.fg t = .scrap call done (.enqueue p .partialInc after)) :
      FgMove cfg s (.fg t)
        { s with
          pending := s.pending + 1
          fg := update s.fg t (.scrap call done (.enqueue p .partialPush after)) }
  | partialPush {t call done p after}
      (position : s.fg t = .scrap call done (.enqueue p .partialPush after)) :
      FgMove cfg s (.fg t)
        { s with
          q1 := s.q1 ++ [p]
          fg := update s.fg t (.scrap call done (.unlock p after)) }
  | fullInc {t call done p after}
      (position : s.fg t = .scrap call done (.enqueue p .fullInc after)) :
      FgMove cfg s (.fg t)
        { s with
          pending := s.pending + 1
          fg := update s.fg t (.scrap call done (.enqueue p .fullEnter after)) }
  | fullEnter {t call done p after}
      (position : s.fg t = .scrap call done (.enqueue p .fullEnter after)) :
      FgMove cfg s (.fg t)
        { s with
          wb := update s.wb (wbSlot (s.pages p).base) (s.wb (wbSlot (s.pages p).base) + 1)
          fg := update s.fg t (.scrap call done (.enqueue p .fullPush after)) }
  | fullPush {t call done p after}
      (position : s.fg t = .scrap call done (.enqueue p .fullPush after)) :
      FgMove cfg s (.fg t)
        { s with
          q2 := s.q2 ++ [p]
          fg := update s.fg t (.scrap call done (.unlock p after)) }
  | unlockMore {t call done p} (position : s.fg t = .scrap call done (.unlock p .ret))
      (more : done + call.chunk done < call.size) :
      FgMove cfg s (.fg t)
        { s with
          lock := update s.lock p none
          fg := update s.fg t (.scrap call (done + call.chunk done) .gate) }
  | unlockDone {t call done p} (position : s.fg t = .scrap call done (.unlock p .ret))
      (last : ¬ done + call.chunk done < call.size) :
      FgMove cfg s (.fg t)
        { s with
          lock := update s.lock p none
          fg := update s.fg t .idle
          log := .returned t call .ok :: s.log }
  | unlockRetry {t call done p} (position : s.fg t = .scrap call done (.unlock p .retry)) :
      FgMove cfg s (.fg t)
        { s with
          lock := update s.lock p none
          fg := update s.fg t (.scrap call done (.detach p)) }
  | detach {t call done p} (position : s.fg t = .scrap call done (.detach p))
      (free : s.shard (Engine.shardOf (call.base done)) = none) :
      FgMove cfg s (.fg t)
        { s with
          buckets := update s.buckets (piHash (call.base done))
            ((s.buckets (piHash (call.base done))).eraseP fun q => s.addr q == s.addr p)
          fg := update s.fg t (.scrap call done .gate)
          log := ((s.detachTarget (call.base done) (s.addr p)).toList.map (.unlinked t)) ++ s.log }
  | pwrite {t call result} (position : s.fg t = .direct call)
      (fits : result.Fits call.offset call.size) :
      FgMove cfg s (.pwrite t result)
        { s with
          file := s.file.pwrite call.offset result.landed call.buf
          fg := update s.fg t .idle
          log := .returned t call (if result = .ok call.size then .ok else .eio) ::
            .wroteDirect call.offset result.landed call.buf :: s.log }

/-- The moves of Stage-1. -/
inductive Stage1Move (cfg : Config) (s : Engine n) : Label n → Engine n → Prop where
  | pop {p rest} (position : s.s1 = .idle) (queue : s.q1 = p :: rest) :
      Stage1Move cfg s .stage1 { s with q1 := rest, s1 := .popped p }
  | exit (position : s.s1 = .idle) (queue : s.q1 = []) (shut : s.shut1 = true) :
      Stage1Move cfg s .stage1 { s with s1 := .exited }
  | inspectFull {p} (position : s.s1 = .popped p) (free : s.lock p = none)
      (full : scrapPageIsFull (s.pages p) = true) :
      Stage1Move cfg s .stage1 { s with s1 := .forwardEnter p }
  | inspectBusy {p} (position : s.s1 = .popped p) (free : s.lock p = none)
      (holes : scrapPageIsFull (s.pages p) = false) (busy : s.ssdIsBusy = true) :
      Stage1Move cfg s .stage1 { s with s1 := .busyPush p }
  | inspectHoles {p} (position : s.s1 = .popped p) (free : s.lock p = none)
      (holes : scrapPageIsFull (s.pages p) = false) (idle : s.ssdIsBusy = false) :
      Stage1Move cfg s .stage1
        { s with
          s1 := .guardWait p (scrapPageHoleRanges (s.pages p) (cfg.maxEntries + 1))
          log := .statEntriesAtStage1 p (s.pages p).hdr.number :: s.log }
  | forwardEnter {p} (position : s.s1 = .forwardEnter p) :
      Stage1Move cfg s .stage1
        { s with
          wb := update s.wb (wbSlot (s.pages p).base) (s.wb (wbSlot (s.pages p).base) + 1)
          s1 := .forwardPush p }
  | forwardPush {p} (position : s.s1 = .forwardPush p) :
      Stage1Move cfg s .stage1 { s with q2 := s.q2 ++ [p], s1 := .idle }
  | busyPush {p} (position : s.s1 = .busyPush p) :
      Stage1Move cfg s .stage1 { s with q1 := s.q1 ++ [p], s1 := .waitNotBusy }
  | wake (position : s.s1 = .waitNotBusy) :
      Stage1Move cfg s .stage1 { s with s1 := .idle }
  | guardPass {p holes} (position : s.s1 = .guardWait p holes)
      (quiet : s.wb (wbSlot (s.pages p).base) = 0) :
      Stage1Move cfg s .stage1 { s with s1 := .readStart p holes }
  | readStart {p holes} (position : s.s1 = .readStart p holes) (bcount : Nat)
      (charged : bcount = s.bcount + zoneSize) :
      Stage1Move cfg s .stage1 { s with bcount, s1 := .reading p (holeRuns holes none) }
  | readEnd {p} (position : s.s1 = .reading p []) (bcount : Nat)
      (discharged : bcount = s.bcount - zoneSize) :
      Stage1Move cfg s .stage1 { s with bcount, s1 := .finish p true }
  | readFailed {p} (position : s.s1 = .readFailed p) (bcount : Nat)
      (discharged : bcount = s.bcount - zoneSize) :
      Stage1Move cfg s .stage1 { s with bcount, s1 := .finish p false }
  | fill {p} (position : s.s1 = .finish p true) (free : s.lock p = none) (page : ScrapPage Cell)
      (filled : page = scrapPageApplyHoles cfg.maxEntries (s.pages p) s.scratch) :
      Stage1Move cfg s .stage1
        { s with
          pages := update s.pages p { page with hdr := { page.hdr with tag := .full } }
          s1 := .fillEnter p }
  | drop {p} (position : s.s1 = .finish p false) (free : s.lock p = none) :
      Stage1Move cfg s .stage1
        { s with
          pages := update s.pages p { s.pages p with inQueue := false }
          ioErr := true
          s1 := .dropDec }
  | dropDec (position : s.s1 = .dropDec) :
      Stage1Move cfg s .stage1 { s with pending := s.pending - 1, s1 := .idle }
  | fillEnter {p} (position : s.s1 = .fillEnter p) :
      Stage1Move cfg s .stage1
        { s with
          wb := update s.wb (wbSlot (s.pages p).base) (s.wb (wbSlot (s.pages p).base) + 1)
          s1 := .fillPush p }
  | fillPush {p} (position : s.s1 = .fillPush p) :
      Stage1Move cfg s .stage1 { s with q2 := s.q2 ++ [p], s1 := .idle }
  | preadOk {p run runs delivered} (position : s.s1 = .reading p (run :: runs)) :
      Stage1Move cfg s (.pread (.count delivered))
        { s with
          scratch := (readRun (s.deviceCell p) (s.zeroCell p) run (.count delivered) s.scratch).2
          s1 := .reading p runs }
  | preadFail {p run runs} (position : s.s1 = .reading p (run :: runs)) :
      Stage1Move cfg s (.pread .fail)
        { s with
          scratch := (readRun (s.deviceCell p) (s.zeroCell p) run .fail s.scratch).2
          s1 := .readFailed p }

/-- The pages a `pwritev` with this outcome completed. -/
def completedPages (batch : List PageId) (st : PwritevState) : PwritevNext → List PageId
  | .again next => (batch.drop st.i).take (next.i - st.i)
  | .done (some _) => batch.drop st.i
  | .done none => []

/-- Where Stage-2 goes after a `pwritev`. -/
def afterPwritev (batch : List PageId) : PwritevNext → Stage2
  | .again next => .writing batch next
  | .done total => .written batch (total == some (batch.length * zoneSize))

/-- The moves of Stage-2. -/
inductive Stage2Move (s : Engine n) : Label n → Engine n → Prop where
  | pop {p rest} (position : s.s2 = .idle) (queue : s.q2 = p :: rest) :
      Stage2Move s .stage2 { s with q2 := rest, s2 := .popped p }
  | exit (position : s.s2 = .idle) (queue : s.q2 = []) (shut : s.shut2 = true) :
      Stage2Move s .stage2 { s with s2 := .exited }
  | poppedBusy {p} (position : s.s2 = .popped p) (busy : s.ssdIsBusy = true) :
      Stage2Move s .stage2 { s with s2 := .busyPush p }
  | poppedGo {p} (position : s.s2 = .popped p) (idle : s.ssdIsBusy = false) :
      Stage2Move s .stage2 { s with s2 := .collect [p] }
  | busyPush {p} (position : s.s2 = .busyPush p) :
      Stage2Move s .stage2 { s with q2 := s.q2 ++ [p], s2 := .waitNotBusy }
  | wake (position : s.s2 = .waitNotBusy) :
      Stage2Move s .stage2 { s with s2 := .idle }
  | collectTake {batch next rest} (position : s.s2 = .collect batch)
      (room : batch.length < pwritevMaxIov) (queue : s.q2 = next :: rest)
      (wanted : (s.pages next).base = s.wantedBase batch) :
      Stage2Move s .stage2 { s with q2 := rest, s2 := .check batch next }
  | collectStop {batch} (position : s.s2 = .collect batch)
      (stop : batch.length < pwritevMaxIov → ∀ next rest, s.q2 = next :: rest →
        (s.pages next).base ≠ s.wantedBase batch) :
      Stage2Move s .stage2 { s with s2 := .detaching [] batch }
  | checkReady {batch next} (position : s.s2 = .check batch next) (free : s.lock next = none)
      (ready : s.ready next = true) :
      Stage2Move s .stage2 { s with s2 := .collect (batch ++ [next]) }
  | checkNotReady {batch next} (position : s.s2 = .check batch next) (free : s.lock next = none)
      (notReady : s.ready next = false) :
      Stage2Move s .stage2 { s with s2 := .pushBack batch next }
  | pushBack {batch next} (position : s.s2 = .pushBack batch next) :
      Stage2Move s .stage2 { s with q2 := s.q2 ++ [next], s2 := .detaching [] batch }
  | detachDone {done} (position : s.s2 = .detaching done []) :
      Stage2Move s .stage2 { s with s2 := .writeStart done }
  | unlinkSkip {done p todo} (position : s.s2 = .detaching done (p :: todo))
      (already : (s.pages p).detached = true) :
      Stage2Move s .stage2 { s with s2 := .tagging done p todo }
  | unlink {done p todo} (position : s.s2 = .detaching done (p :: todo))
      (linked : (s.pages p).detached = false)
      (free : s.shard (Engine.shardOf (s.pages p).base) = none) :
      Stage2Move s .stage2
        { s with
          buckets := update s.buckets (piHash (s.pages p).base)
            ((s.buckets (piHash (s.pages p).base)).eraseP fun q => s.addr q == s.addr p)
          pages := update s.pages p { s.pages p with detached := true }
          s2 := .tagging done p todo }
  | tag {done p todo} (position : s.s2 = .tagging done p todo) (free : s.lock p = none) :
      Stage2Move s .stage2
        { s with
          pages := update s.pages p { s.pages p with
            hdr := { (s.pages p).hdr with tag := .flushing }
            inQueue := false }
          s2 := .detaching (done ++ [p]) todo }
  | writeStart {batch} (position : s.s2 = .writeStart batch) (bcount : Nat)
      (charged : bcount = s.bcount + batch.length * zoneSize) :
      Stage2Move s .stage2 { s with bcount, s2 := .writing batch PwritevState.init }
  | written {batch ok} (position : s.s2 = .written batch ok) (bcount : Nat)
      (discharged : bcount = s.bcount - batch.length * zoneSize) :
      Stage2Move s .stage2 { s with bcount, s2 := .latch batch ok }
  | latch {batch ok} (position : s.s2 = .latch batch ok) :
      Stage2Move s .stage2 { s with ioErr := s.ioErr || !ok, s2 := .freeing batch }
  | freeDone (position : s.s2 = .freeing []) :
      Stage2Move s .stage2 { s with s2 := .idle }
  | free {p batch} (position : s.s2 = .freeing (p :: batch)) :
      Stage2Move s .stage2
        { s with
          freed := update s.freed p true
          watermark := { s.watermark with live := s.watermark.live - 1 }
          s2 := .leaving p (s.pages p).base batch
          log := .freed p :: s.log }
  | leave {p doneBase batch} (position : s.s2 = .leaving p doneBase batch) (wb : Nat → Nat)
      (left : wb = (s.wbGuardLeave doneBase).wb) :
      Stage2Move s .stage2 { s with wb, s2 := .decrement batch }
  | decrement {batch} (position : s.s2 = .decrement batch) :
      Stage2Move s .stage2 { s with pending := s.pending - 1, s2 := .freeing batch }
  | pwritev {batch st result} (position : s.s2 = .writing batch st)
      (fits : result.Fits ((s.pages (batch.headD 0)).base + st.i * zoneSize)
        ((batch.drop st.i).length * zoneSize))
      (after : PwritevNext)
      (outcome : after = pwritevAfter (batch.map fun _ => zoneSize) st result) :
      Stage2Move s (.pwritev result)
        { s with
          file := s.file.pwrite ((s.pages (batch.headD 0)).base + st.i * zoneSize) result.landed
            fun k => (gather ((batch.drop st.i).map fun p => (s.pages p).data) k).val
          s2 := afterPwritev batch after
          log := ((completedPages batch st after).map Event.wrote).reverse ++
            .issued ((s.pages (batch.headD 0)).base + st.i * zoneSize) (batch.drop st.i)
              ((batch.drop st.i).map fun p => (s.pages p).data) :: s.log }

/-- The moves of `nox_close`. -/
inductive CloserMove (s : Engine n) : Label n → Engine n → Prop where
  | close (position : s.closer = .running) (idle : ∀ t, s.fg t = .idle) :
      CloserMove s .close { s with closer := .disarm }
  | disarm (position : s.closer = .disarm) :
      CloserMove s .closer
        { s with watermark := { s.watermark with armed := false }, closer := .firstDrain }
  | firstDrain (position : s.closer = .firstDrain) (drained : s.pending = 0) :
      CloserMove s .closer { s with closer := .sweep s.ioErr 0 (s.buckets 0).head? }
  | sweepBucket {err bucket} (position : s.closer = .sweep err bucket none)
      (more : bucket + 1 < piBuckets) :
      CloserMove s .closer
        { s with closer := .sweep err (bucket + 1) (s.buckets (bucket + 1)).head? }
  | sweepDone {err bucket} (position : s.closer = .sweep err bucket none)
      (last : ¬ bucket + 1 < piBuckets) :
      CloserMove s .closer { s with closer := .secondDrain err }
  | sweepFault {err bucket p} (position : s.closer = .sweep err bucket (some p))
      (gone : s.freed p = true) :
      CloserMove s .closer { s with closer := .fault }
  | sweepLock {err bucket p} (position : s.closer = .sweep err bucket (some p))
      (alive : s.freed p = false) (free : s.lock p = none) (page : ScrapPage Cell)
      (enqueue : Option Enqueue) (chosen : (page, enqueue) = Engine.enqueueOne (s.pages p)) :
      CloserMove s .closer
        { s with
          pages := update s.pages p page
          lock := update s.lock p (some .closer)
          closer := Engine.sweepAfter err bucket p enqueue }
  | partialInc {err bucket p} (position : s.closer = .sweepEnqueue err bucket p .partialInc) :
      CloserMove s .closer
        { s with pending := s.pending + 1, closer := .sweepEnqueue err bucket p .partialPush }
  | partialPush {err bucket p} (position : s.closer = .sweepEnqueue err bucket p .partialPush) :
      CloserMove s .closer { s with q1 := s.q1 ++ [p], closer := .sweepUnlock err bucket p }
  | fullInc {err bucket p} (position : s.closer = .sweepEnqueue err bucket p .fullInc) :
      CloserMove s .closer
        { s with pending := s.pending + 1, closer := .sweepEnqueue err bucket p .fullEnter }
  | fullEnter {err bucket p} (position : s.closer = .sweepEnqueue err bucket p .fullEnter) :
      CloserMove s .closer
        { s with
          wb := update s.wb (wbSlot (s.pages p).base) (s.wb (wbSlot (s.pages p).base) + 1)
          closer := .sweepEnqueue err bucket p .fullPush }
  | fullPush {err bucket p} (position : s.closer = .sweepEnqueue err bucket p .fullPush) :
      CloserMove s .closer { s with q2 := s.q2 ++ [p], closer := .sweepUnlock err bucket p }
  | sweepUnlock {err bucket p} (position : s.closer = .sweepUnlock err bucket p) :
      CloserMove s .closer
        { s with lock := update s.lock p none, closer := .sweepNext err bucket p }
  | sweepNextFault {err bucket p} (position : s.closer = .sweepNext err bucket p)
      (gone : s.freed p = true) :
      CloserMove s .closer { s with closer := .fault }
  | sweepNext {err bucket p} (position : s.closer = .sweepNext err bucket p)
      (alive : s.freed p = false) :
      CloserMove s .closer { s with closer := .sweep err bucket (s.nextLink bucket p) }
  | secondDrain {err} (position : s.closer = .secondDrain err) (drained : s.pending = 0) :
      CloserMove s .closer { s with closer := .stopping (err || s.ioErr) }
  | stopping {err} (position : s.closer = .stopping err) :
      CloserMove s .closer { s with stopping := true, closer := .shutdown1 err }
  | shutdown1 {err} (position : s.closer = .shutdown1 err) :
      CloserMove s .closer { s with shut1 := true, closer := .join1 err }
  | join1 {err} (position : s.closer = .join1 err) (gone : s.s1 = .exited) :
      CloserMove s .closer { s with closer := .shutdown2 err }
  | shutdown2 {err} (position : s.closer = .shutdown2 err) :
      CloserMove s .closer { s with shut2 := true, closer := .join2 err }
  | join2 {err} (position : s.closer = .join2 err) (gone : s.s2 = .exited) :
      CloserMove s .closer { s with closer := .lastCheck err }
  | lastCheck {err} (position : s.closer = .lastCheck err) :
      CloserMove s .closer { s with closer := .destroy (err || s.ioErr) }
  | destroy {err} (position : s.closer = .destroy err) :
      CloserMove s .closer
        { s with
          freed := fun p => s.freed p || s.resident.contains p
          buckets := fun _ => []
          watermark := { s.watermark with live := s.watermark.live - s.resident.length }
          closer := .closeFd err
          log := s.resident.map Event.freed ++ s.log }
  | closeFd {err ok} (position : s.closer = .closeFd err) :
      CloserMove s (.closeFd ok) { s with closer := .returned (err || !ok) }

/-- A step of the engine is a move of one of its threads. -/
inductive Move (cfg : Config) (s : Engine n) (label : Label n) (s' : Engine n) : Prop where
  | fg (move : FgMove cfg s label s')
  | stage1 (move : Stage1Move cfg s label s')
  | stage2 (move : Stage2Move s label s')
  | closer (move : CloserMove s label s')

/-! ## The step function makes only these moves -/

variable {cfg : Config} {s s' : Engine n}

theorem move_of_noxWrite {t : Fin n} {call : Call} (stepped : s.noxWrite t call = some s') :
    FgMove cfg s (.call t call) s' := by
  unfold Engine.noxWrite at stepped
  split at stepped
  · next position running =>
    split at stepped
    · next empty => cases stepped; exact .callZero position running empty
    · next nonempty =>
      split at stepped
      · next direct => cases stepped; exact .callDirect position running nonempty direct
      · next scrap =>
        cases stepped; exact .callScrap position running nonempty (by simpa using scrap)
  · contradiction

theorem move_of_chunkStep {t : Fin n} {call : Call} {done : Nat} {pc : ChunkPc}
    (position : s.fg t = .scrap call done pc) (stepped : s.chunkStep cfg t call done pc = some s') :
    FgMove cfg s (.fg t) s' := by
  cases pc with
  | gate =>
    -- The gate lets the thread through or parks it.
    simp only [Engine.chunkStep] at stepped
    split at stepped
    · next room => cases stepped; exact .gatePass position room
    · next noRoom => cases stepped; exact .gatePark position noRoom
  | parked =>
    simp only [Engine.chunkStep] at stepped
    split at stepped
    · next released => cases stepped; exact .parkedPass position released
    · contradiction
  | lookup =>
    simp only [Engine.chunkStep] at stepped
    split at stepped
    · next free =>
      split at stepped
      · next p found => cases stepped; exact .lookupFound position free found
      · contradiction
    · contradiction
  | lockPage p =>
    simp only [Engine.chunkStep] at stepped
    split at stepped
    · next free => cases stepped; exact .lockPage position free
    · contradiction
  | held p created => cases stepped; exact .decide position _ rfl
  | enqueue p e after =>
    cases e with
    | partialInc => cases stepped; exact .partialInc position
    | partialPush => cases stepped; exact .partialPush position
    | fullInc => cases stepped; exact .fullInc position
    | fullEnter => cases stepped; exact .fullEnter position
    | fullPush => cases stepped; exact .fullPush position
  | unlock p after =>
    cases after with
    | ret =>
      simp only [Engine.chunkStep, Engine.finishChunk] at stepped
      split at stepped
      · next more => cases stepped; exact .unlockMore position more
      · next last => cases stepped; exact .unlockDone position last
    | retry => cases stepped; exact .unlockRetry position
  | detach p =>
    simp only [Engine.chunkStep] at stepped
    split at stepped
    · next free => cases stepped; exact .detach position free
    · contradiction

theorem move_of_fgStep {t : Fin n} (stepped : s.fgStep cfg t = some s') :
    FgMove cfg s (.fg t) s' := by
  unfold Engine.fgStep at stepped
  split at stepped
  · next call done pc position => exact move_of_chunkStep position stepped
  · contradiction

theorem move_of_allocStep {t : Fin n} {address : Nat} {zone : Nat → UInt8}
    (stepped : s.allocStep t address zone = some s') :
    FgMove cfg s (.alloc t address zone) s' := by
  unfold Engine.allocStep at stepped
  split at stepped
  · next call done position =>
    split at stepped
    · next guard => cases stepped; exact .alloc position guard.1 guard.2.1 guard.2.2
    · contradiction
  · contradiction

theorem move_of_oomStep {t : Fin n} (stepped : s.oomStep t = some s') :
    FgMove cfg s (.oom t) s' := by
  unfold Engine.oomStep at stepped
  split at stepped
  · next call done position =>
    split at stepped
    · next guard => cases stepped; exact .oomPage position guard.1 guard.2
    · contradiction
  · next call position => cases stepped; exact .oomDirect position
  · contradiction

theorem move_of_pwriteStep {t : Fin n} {result : IoResult}
    (stepped : s.pwriteStep t result = some s') : FgMove cfg s (.pwrite t result) s' := by
  unfold Engine.pwriteStep at stepped
  split at stepped
  · next call position =>
    split at stepped
    · next fits => cases stepped; exact .pwrite position fits
    · contradiction
  · contradiction

theorem move_of_stage1Step (stepped : s.stage1Step cfg = some s') :
    Stage1Move cfg s .stage1 s' := by
  unfold Engine.stage1Step at stepped
  split at stepped
  · next position =>
    split at stepped
    · next p rest queue => cases stepped; exact .pop position queue
    · next queue =>
      split at stepped
      · next shut => cases stepped; exact .exit position queue shut
      · contradiction
  · next p position =>
    split at stepped
    · next free =>
      rw [Engine.stage1Inspect] at stepped
      split at stepped
      · next full => cases stepped; exact .inspectFull position free full
      · next holes =>
        split at stepped
        · next busy => cases stepped; exact .inspectBusy position free (by simpa using holes) busy
        · next idle =>
          cases stepped
          exact .inspectHoles position free (by simpa using holes) (by simpa using idle)
    · contradiction
  · next p position => cases stepped; exact .forwardEnter position
  · next p position => cases stepped; exact .forwardPush position
  · next p position => cases stepped; exact .busyPush position
  · next position => cases stepped; exact .wake position
  · next p holes position =>
    split at stepped
    · next quiet => cases stepped; exact .guardPass position quiet
    · contradiction
  · next p holes position => cases stepped; exact .readStart position _ rfl
  · next p position => cases stepped; exact .readEnd position _ rfl
  · contradiction
  · next p position => cases stepped; exact .readFailed position _ rfl
  · next p ok position =>
    split at stepped
    · next free =>
      cases ok with
      | true => cases stepped; exact .fill position free _ rfl
      | false => cases stepped; exact .drop position free
    · contradiction
  · next position => cases stepped; exact .dropDec position
  · next p position => cases stepped; exact .fillEnter position
  · next p position => cases stepped; exact .fillPush position
  · contradiction

theorem move_of_preadStep {result : Pread} (stepped : s.preadStep result = some s') :
    Stage1Move cfg s (.pread result) s' := by
  unfold Engine.preadStep at stepped
  split at stepped
  · next p run runs position =>
    cases result with
    | fail => cases stepped; exact .preadFail position
    | count delivered => cases stepped; exact .preadOk position
  · contradiction

theorem move_of_stage2Step (stepped : s.stage2Step = some s') : Stage2Move s .stage2 s' := by
  unfold Engine.stage2Step at stepped
  split at stepped
  · next position =>
    split at stepped
    · next p rest queue => cases stepped; exact .pop position queue
    · next queue =>
      split at stepped
      · next shut => cases stepped; exact .exit position queue shut
      · contradiction
  · next p position =>
    split at stepped
    · next busy => cases stepped; exact .poppedBusy position busy
    · next idle => cases stepped; exact .poppedGo position (by simpa using idle)
  · next p position => cases stepped; exact .busyPush position
  · next position => cases stepped; exact .wake position
  · next batch position =>
    split at stepped
    · next room =>
      split at stepped
      · next next rest queue =>
        split at stepped
        · next wanted => cases stepped; exact .collectTake position room queue wanted
        -- The head of Queue-2 is not the page the batch needs.
        · next other =>
          cases stepped
          refine .collectStop position fun _ page tail head => ?_
          obtain ⟨rfl, rfl⟩ := List.cons.inj (queue.symm.trans head)
          exact other
      · next queue =>
        cases stepped
        exact .collectStop position fun _ page tail head => by simp [queue] at head
    · next full => cases stepped; exact .collectStop position fun room => absurd room full
  · next batch next position =>
    split at stepped
    · next free =>
      split at stepped
      · next ready => cases stepped; exact .checkReady position free ready
      · next notReady => cases stepped; exact .checkNotReady position free (by simpa using notReady)
    · contradiction
  · next batch next position => cases stepped; exact .pushBack position
  · next done position => cases stepped; exact .detachDone position
  · next done p todo position =>
    split at stepped
    · next guard =>
      rw [Engine.stage2Unlink] at stepped
      split at stepped
      · next already => cases stepped; exact .unlinkSkip position already
      -- A page that is off its chain is skipped without the shard lock.
      · next linked =>
        cases stepped
        exact .unlink position (by simpa using linked) (guard.resolve_left linked)
    · contradiction
  · next done p todo position =>
    split at stepped
    · next free => cases stepped; exact .tag position free
    · contradiction
  · next batch position => cases stepped; exact .writeStart position _ rfl
  · contradiction
  · next batch ok position => cases stepped; exact .written position _ rfl
  · next batch ok position => cases stepped; exact .latch position
  · next position => cases stepped; exact .freeDone position
  · next p batch position => cases stepped; exact .free position
  · next p doneBase batch position => cases stepped; exact .leave position _ rfl
  · next batch position => cases stepped; exact .decrement position
  · contradiction

theorem move_of_pwritevStep {result : IoResult} (stepped : s.pwritevStep result = some s') :
    Stage2Move s (.pwritev result) s' := by
  unfold Engine.pwritevStep at stepped
  split at stepped
  · next batch st position =>
    dsimp only at stepped
    split at stepped
    · next fits => cases stepped; exact .pwritev position fits _ rfl
    · contradiction
  · contradiction

theorem move_of_noxClose (stepped : s.noxClose = some s') : CloserMove s .close s' := by
  unfold Engine.noxClose at stepped
  split at stepped
  · next guard =>
    cases stepped
    refine .close guard.2 fun t => ?_
    have idle := guard.1 t
    cases position : s.fg t <;> simp_all [Fg.isIdle]
  · contradiction

theorem move_of_closerStep (stepped : s.closerStep = some s') : CloserMove s .closer s' := by
  unfold Engine.closerStep at stepped
  split at stepped
  · contradiction
  · next position => cases stepped; exact .disarm position
  · next position =>
    split at stepped
    · next drained => cases stepped; exact .firstDrain position drained
    · contradiction
  · next err bucket position =>
    split at stepped
    · next more => cases stepped; exact .sweepBucket position more
    · next last => cases stepped; exact .sweepDone position last
  · next err bucket p position =>
    split at stepped
    · next gone => cases stepped; exact .sweepFault position gone
    · next alive =>
      split at stepped
      · next free => cases stepped; exact .sweepLock position (by simpa using alive) free _ _ rfl
      · contradiction
  · next err bucket p e position =>
    cases e with
    | partialInc => cases stepped; exact .partialInc position
    | partialPush => cases stepped; exact .partialPush position
    | fullInc => cases stepped; exact .fullInc position
    | fullEnter => cases stepped; exact .fullEnter position
    | fullPush => cases stepped; exact .fullPush position
  · next err bucket p position => cases stepped; exact .sweepUnlock position
  · next err bucket p position =>
    split at stepped
    · next gone => cases stepped; exact .sweepNextFault position gone
    · next alive => cases stepped; exact .sweepNext position (by simpa using alive)
  · next err position =>
    split at stepped
    · next drained => cases stepped; exact .secondDrain position drained
    · contradiction
  · next err position => cases stepped; exact .stopping position
  · next err position => cases stepped; exact .shutdown1 position
  · next err position =>
    split at stepped
    · next gone => cases stepped; exact .join1 position gone
    · contradiction
  · next err position => cases stepped; exact .shutdown2 position
  · next err position =>
    split at stepped
    · next gone => cases stepped; exact .join2 position gone
    · contradiction
  · next err position => cases stepped; exact .lastCheck position
  · next err position => cases stepped; exact .destroy position
  · contradiction
  · contradiction
  · contradiction

theorem move_of_closeFdStep {ok : Bool} (stepped : s.closeFdStep ok = some s') :
    CloserMove s (.closeFd ok) s' := by
  unfold Engine.closeFdStep at stepped
  split at stepped
  · next err position => cases stepped; exact .closeFd position
  · contradiction

theorem move_of_step {label : Label n} (stepped : s.step cfg label = some s') :
    Move cfg s label s' := by
  cases label with
  | call t call => exact .fg (move_of_noxWrite stepped)
  | fg t => exact .fg (move_of_fgStep stepped)
  | alloc t address zone => exact .fg (move_of_allocStep stepped)
  | oom t => exact .fg (move_of_oomStep stepped)
  | pwrite t result => exact .fg (move_of_pwriteStep stepped)
  | stage1 => exact .stage1 (move_of_stage1Step stepped)
  | pread result => exact .stage1 (move_of_preadStep stepped)
  | stage2 => exact .stage2 (move_of_stage2Step stepped)
  | pwritev result => exact .stage2 (move_of_pwritevStep stepped)
  | close => exact .closer (move_of_noxClose stepped)
  | closer => exact .closer (move_of_closerStep stepped)
  | closeFd ok => exact .closer (move_of_closeFdStep stepped)

end NoxDB

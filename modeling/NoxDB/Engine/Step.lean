import NoxDB.Engine.Background

/-! # Shutdown and the step function

`nox_close` with `otflush_drain`, `page_index_foreach`, `otflush_stop` and
`page_index_destroy`, and the step function of the whole engine.  A label says
which thread moves and what the environment answers.  The first step of Stage-1 is its
first pop: its scratch zone is allocated by then (`Engine.Starvation` has the other case).
-/

namespace NoxDB

variable {n : Nat}

namespace Engine

/-- The pages still linked when the index is destroyed. -/
def resident (s : Engine n) : List PageId := (List.range piBuckets).flatMap s.buckets

/-- `p->next`: the successor in the chain, and `NULL` once the page was unlinked. -/
def nextLink (s : Engine n) (bucket : Nat) (p : PageId) : Option PageId :=
  ((s.buckets bucket).dropWhile fun q => q != p)[1]?

/-- `enqueue_one` up to the enqueue. -/
def enqueueOne (page : ScrapPage Cell) : ScrapPage Cell × Option Enqueue :=
  if scrapPageIsFull page then enqueueFull page else enqueuePartial page

/-- Where `enqueue_one` goes once it holds the page lock. -/
def sweepAfter (err : Bool) (bucket : Nat) (p : PageId) : Option Enqueue → Closer
  | some e => .sweepEnqueue err bucket p e
  | none => .sweepUnlock err bucket p

def closerStep (s : Engine n) : Option (Engine n) :=
  match s.closer with
  | .running => none
  | .disarm =>
    some { s with watermark := { s.watermark with armed := false }, closer := .firstDrain }
  | .firstDrain =>
    -- `otflush_drain`; its result is the first value of `err`.
    if s.pending = 0 then some { s with closer := .sweep s.ioErr 0 (s.buckets 0).head? }
    else none
  | .sweep err bucket none =>
    if bucket + 1 < piBuckets then
      some { s with closer := .sweep err (bucket + 1) (s.buckets (bucket + 1)).head? }
    else
      some { s with closer := .secondDrain err }
  | .sweep err bucket (some p) =>
    -- The walk holds no lock: the page under its cursor can be gone.
    if s.freed p then
      some { s with closer := .fault }
    else if s.lock p = none then
      -- Full pages go to Queue-2, the others to Queue-1, unless a queue has them.
      let (page, enqueue) := enqueueOne (s.pages p)
      some { s.setPage p page with
        lock := Function.update s.lock p (some .closer)
        closer := sweepAfter err bucket p enqueue }
    else
      none
  | .sweepEnqueue err bucket p e =>
    match s.enqueueStep p e with
    | (s, some e) => some { s with closer := .sweepEnqueue err bucket p e }
    | (s, none) => some { s with closer := .sweepUnlock err bucket p }
  | .sweepUnlock err bucket p =>
    some { s with lock := Function.update s.lock p none, closer := .sweepNext err bucket p }
  | .sweepNext err bucket p =>
    -- `p = p->next` comes after the callback has dropped the page lock.
    if s.freed p then some { s with closer := .fault }
    else some { s with closer := .sweep err bucket (s.nextLink bucket p) }
  | .secondDrain err =>
    if s.pending = 0 then some { s with closer := .stopping (err || s.ioErr) } else none
  | .stopping err => some { s with stopping := true, closer := .shutdown1 err }
  | .shutdown1 err => some { s with shut1 := true, closer := .join1 err }
  | .join1 err => if s.s1 = .exited then some { s with closer := .shutdown2 err } else none
  | .shutdown2 err => some { s with shut2 := true, closer := .join2 err }
  | .join2 err => if s.s2 = .exited then some { s with closer := .lastCheck err } else none
  | .lastCheck err => some { s with closer := .destroy (err || s.ioErr) }
  | .destroy err =>
    some { s with
      -- `page_index_destroy` frees what is still linked, queued or not.
      freed := fun p => s.freed p || s.resident.contains p
      buckets := fun _ => []
      watermark := { s.watermark with live := s.watermark.live - s.resident.length }
      closer := .closeFd err
      log := s.resident.map Event.freed ++ s.log }
  | .closeFd _ => none
  | .returned _ => none
  | .fault => none

/-- The application calls `nox_close`, all its writers having returned. -/
def noxClose (s : Engine n) : Option (Engine n) :=
  -- The contract of `nox_close`: every writer has returned.
  if (∀ t, (s.fg t).isIdle) ∧ s.closer = .running then
    some { s with closer := .disarm }
  else
    none

/-- The `close` of the file descriptor. -/
def closeFdStep (s : Engine n) (ok : Bool) : Option (Engine n) :=
  match s.closer with
  | .closeFd err => some { s with closer := .returned (err || !ok) }
  | _ => none

end Engine

inductive Label (n : Nat) where
  | call (t : Fin n) (call : Call)
  | fg (t : Fin n)
  | alloc (t : Fin n) (address : Nat) (zone : Nat → UInt8)
  | oom (t : Fin n)
  | pwrite (t : Fin n) (result : IoResult)
  | stage1
  | pread (result : Pread)
  | stage2
  | pwritev (result : IoResult)
  | close
  | closer
  | closeFd (ok : Bool)

def Engine.step (cfg : Config) (s : Engine n) : Label n → Option (Engine n)
  | .call t call => s.noxWrite t call
  | .fg t => s.fgStep cfg t
  | .alloc t address zone => s.allocStep t address zone
  | .oom t => s.oomStep t
  | .pwrite t result => s.pwriteStep t result
  | .stage1 => s.stage1Step cfg
  | .pread result => s.preadStep result
  | .stage2 => s.stage2Step
  | .pwritev result => s.pwritevStep result
  | .close => s.noxClose
  | .closer => s.closerStep
  | .closeFd ok => s.closeFdStep ok

end NoxDB

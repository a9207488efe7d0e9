import Mathlib.Data.Fintype.Basic
import Mathlib.Logic.Function.Basic
import NoxDB.File
import NoxDB.IoDirect
import NoxDB.ScrapPage

/-! # The state of a running engine

One engine with `n` foreground threads, the Stage-1 thread, the Stage-2 thread and
the thread inside `nox_close`.  Each thread is a program counter with its local
variables; the rest is the shared memory.  A page is named by its generation, the
number of pages created before it; `addr` is the address it lives at, which the
allocator may hand out again after a free.  Bucket chains and queues are the lists
of pages that following `next` and `qnext` visits.  Stage-1 is taken to have the scratch
zone that its thread allocates before anything else; `Engine.Starvation` is about the
engine in which that allocation fails, and `Engine.Report` about both.

A cell of a data zone carries its byte together with where the byte came from, and
`log` records what happened, newest first.  No step reads either.
-/

namespace NoxDB

open Library.Segments

abbrev PageId := Nat

/-- Where a byte in memory came from: left by the allocator, copied from a user
buffer for a file offset, or read by Stage-1 for a page and a file offset. -/
inductive Origin where
  | uninit
  | user (offset : Nat)
  | device (page : PageId) (offset : Nat)
  | zero (page : PageId) (offset : Nat)
deriving DecidableEq, Repr

structure Cell where
  val : UInt8
  src : Origin
deriving DecidableEq, Repr

/-! ## Foreground -/

/-- The arguments of a `nox_write`. -/
structure Call where
  buf : Nat → UInt8
  size : Nat
  offset : Nat
  size_lt : size < word
  offset_lt : offset < word

theorem word_pos : 0 < word := by decide

theorem ten_lt_word : 10 < word := by decide

theorem zoneSize_lt_word : zoneSize < word := by decide

theorem directThreshold_lt_word : directThreshold < word := by decide

/-- The thread number of a run with one foreground thread. -/
instance oneThread : NeZero 1 := ⟨Nat.one_ne_zero⟩

/-- The thread numbers of a run with two foreground threads. -/
instance twoThreads : NeZero 2 := ⟨Nat.succ_ne_zero 1⟩

namespace Call

/-- The position in the user buffer of file offset `x`; offsets are 64-bit and wrap. -/
def index (call : Call) (x : Nat) : Nat := (x + word - call.offset) % word

/-- The call writes file offset `x`. -/
def Covers (call : Call) (x : Nat) : Prop := x < word ∧ call.index x < call.size

instance (call : Call) (x : Nat) : Decidable (call.Covers x) :=
  inferInstanceAs (Decidable (_ ∧ _))

/-- The byte the call wants at file offset `x`. -/
def value (call : Call) (x : Nat) : UInt8 := call.buf (call.index x)

/-- The router of `nox_write`: big and aligned in size and offset. -/
def isDirect (call : Call) : Bool :=
  directThreshold ≤ call.size && call.size % blockSize == 0 && call.offset % blockSize == 0

/-! The variables of the split loop of `nox_write` once `done` bytes are delivered. -/

def cur (call : Call) (done : Nat) : Nat := (call.offset + done) % word

def base (call : Call) (done : Nat) : Nat := pageBase (call.cur done)

def intra (call : Call) (done : Nat) : Nat := call.cur done - call.base done

def chunk (call : Call) (done : Nat) : Nat :=
  if call.size - done < zoneSize - call.intra done then call.size - done
  else zoneSize - call.intra done

/-- The part of the user buffer that starts at `src`. -/
def cells (call : Call) (done : Nat) : Nat → Cell :=
  fun i => ⟨call.buf (done + i), .user ((call.offset + done + i) % word)⟩

end Call

/-- What a call returned: 0, `-1` for lack of memory, `-1` for a failed direct write. -/
inductive ReturnCode where
  | ok
  | enomem
  | eio
deriving DecidableEq, Repr

/-- What follows the unlock in `scrap_write_chunk`: `return 0`, or detach and `continue`. -/
inductive After where
  | ret
  | retry
deriving DecidableEq, Repr

/-- Positions inside `otflush_enqueue_partial` and `otflush_enqueue_full`, once
`in_queue` is set. -/
inductive Enqueue where
  | partialInc
  | partialPush
  | fullInc
  | fullEnter
  | fullPush
deriving DecidableEq, Repr

/-- Positions inside `scrap_write_chunk`. -/
inductive ChunkPc where
  /-- Entry of `nox_watermark_wait`. -/
  | gate
  /-- Asleep in `nox_watermark_wait`. -/
  | parked
  /-- Before the shard lock of `page_index_get_or_create`. -/
  | lookup
  /-- Found the page, holds the shard lock, wants the page lock. -/
  | lockPage (p : PageId)
  /-- Back from `page_index_get_or_create` with the page lock. -/
  | held (p : PageId) (created : Bool)
  | enqueue (p : PageId) (at_ : Enqueue) (after : After)
  | unlock (p : PageId) (after : After)
  /-- Before the shard lock of `page_index_detach_if`; holds the bare pointer. -/
  | detach (p : PageId)
deriving DecidableEq, Repr

inductive Fg where
  | idle
  | direct (call : Call)
  | scrap (call : Call) (done : Nat) (pc : ChunkPc)

def Fg.isIdle : Fg → Bool
  | .idle => true
  | _ => false

/-! ## Background -/

/-- Positions inside `stage1_loop`. -/
inductive Stage1 where
  | idle
  | popped (p : PageId)
  | forwardEnter (p : PageId)
  | forwardPush (p : PageId)
  | busyPush (p : PageId)
  | waitNotBusy
  | guardWait (p : PageId) (holes : List ScrapEntry)
  | readStart (p : PageId) (holes : List ScrapEntry)
  | reading (p : PageId) (runs : List Segment)
  | readFailed (p : PageId)
  | finish (p : PageId) (ok : Bool)
  | dropDec
  | fillEnter (p : PageId)
  | fillPush (p : PageId)
  | exited
deriving DecidableEq, Repr

/-- Positions inside `stage2_loop`, `stage2_collect` and `stage2_detach`. -/
inductive Stage2 where
  | idle
  | popped (p : PageId)
  | busyPush (p : PageId)
  | waitNotBusy
  | collect (batch : List PageId)
  | check (batch : List PageId) (next : PageId)
  | pushBack (batch : List PageId) (next : PageId)
  | detaching (done todo : List PageId)
  | tagging (done : List PageId) (p : PageId) (todo : List PageId)
  | writeStart (batch : List PageId)
  | writing (batch : List PageId) (st : PwritevState)
  | written (batch : List PageId) (ok : Bool)
  | latch (batch : List PageId) (ok : Bool)
  | freeing (batch : List PageId)
  | leaving (p : PageId) (doneBase : Nat) (batch : List PageId)
  | decrement (batch : List PageId)
  | exited
deriving DecidableEq, Repr

/-- Positions inside `nox_close`.  `err` is the local variable. -/
inductive Closer where
  | running
  | disarm
  | firstDrain
  | sweep (err : Bool) (bucket : Nat) (cur : Option PageId)
  | sweepEnqueue (err : Bool) (bucket : Nat) (p : PageId) (at_ : Enqueue)
  | sweepUnlock (err : Bool) (bucket : Nat) (p : PageId)
  | sweepNext (err : Bool) (bucket : Nat) (p : PageId)
  | secondDrain (err : Bool)
  | stopping (err : Bool)
  | shutdown1 (err : Bool)
  | join1 (err : Bool)
  | shutdown2 (err : Bool)
  | join2 (err : Bool)
  | lastCheck (err : Bool)
  | destroy (err : Bool)
  | closeFd (err : Bool)
  | returned (err : Bool)
  /-- The walk touched a page that was already freed. -/
  | fault
deriving DecidableEq, Repr

/-- Holder of a page lock across steps. -/
inductive Owner (n : Nat) where
  | fg (t : Fin n)
  | closer
deriving DecidableEq, Repr

/-- The module state of `watermark.c`.  `g_live` is a `uint32_t` and wraps where `Gate.noteAlloc`
counts it; the level of one engine stays below the high mark plus the number of its writers
(`counters_fit`), so the engine counts it in full. -/
structure Watermark where
  armed : Bool
  high : Nat
  low : Nat
  live : Nat
  blockedCount : Nat
deriving DecidableEq, Repr

/-- What the history records. -/
inductive Event (n : Nat) where
  | created (t : Fin n) (p : PageId)
  /-- `t` found `p` sealed, or sealed it, under its lock. -/
  | sawSealed (t : Fin n) (p : PageId)
  | sealedByOverflow (p : PageId)
  /-- `SCRAP_OK`: `len` cells merged into `p` for file offset `offset` on. -/
  | merged (p : PageId) (offset len : Nat) (cells : Nat → Cell)
  /-- `nox_stat_page_full` -/
  | statPageFull (p : PageId) (entries : Nat)
  /-- `nox_stat_entries_at_stage1` -/
  | statEntriesAtStage1 (p : PageId) (entries : Nat)
  /-- `page_index_detach_if` called by `scrap_write_chunk` unlinked `p`. -/
  | unlinked (t : Fin n) (p : PageId)
  /-- A `pwritev` of these zones of these pages, in order, at `offset`. -/
  | issued (offset : Nat) (pages : List PageId) (zones : List (Nat → Cell))
  /-- The last byte of the zone of `p` reached the file. -/
  | wrote (p : PageId)
  /-- A direct write of `len` bytes reached the file. -/
  | wroteDirect (offset len : Nat) (bytes : Nat → UInt8)
  | freed (p : PageId)
  | returned (t : Fin n) (call : Call) (rc : ReturnCode)

structure Engine (n : Nat) where
  /-- Pages by generation. -/
  pages : PageId → ScrapPage Cell
  addr : PageId → Nat
  freed : PageId → Bool
  lock : PageId → Option (Owner n)
  /-- The number of pages created so far. -/
  created : Nat
  /-- The page index. -/
  buckets : Nat → List PageId
  shard : Nat → Option (Fin n)
  /-- The flusher. -/
  q1 : List PageId
  q2 : List PageId
  shut1 : Bool
  shut2 : Bool
  bcount : Nat
  pending : Nat
  ioErr : Bool
  stopping : Bool
  /-- The slots of the writeback guard.  They are `uint32_t`, and none is above the level by
  more than one (`counters_fit`). -/
  wb : Nat → Nat
  /-- Stage-1's scratch zone. -/
  scratch : Nat → Cell
  watermark : Watermark
  file : File
  fg : Fin n → Fg
  s1 : Stage1
  s2 : Stage2
  closer : Closer
  log : List (Event n)

/-- The engine as `nox_open` returns it, over a file and with whatever the allocator
left in Stage-1's scratch zone. -/
def Engine.init (n : Nat) (cfg : Config) (file : File) (scratch : Nat → UInt8) : Engine n where
  pages := fun _ => scrapPageAlloc 0 0 fun _ => ⟨0, .uninit⟩
  addr := fun _ => 0
  freed := fun _ => false
  lock := fun _ => none
  created := 0
  buckets := fun _ => []
  shard := fun _ => none
  q1 := []
  q2 := []
  shut1 := false
  shut2 := false
  bcount := 0
  pending := 0
  ioErr := false
  stopping := false
  wb := fun _ => 0
  scratch := fun x => ⟨scratch x, .uninit⟩
  watermark := { armed := true, high := cfg.high, low := cfg.low, live := 0, blockedCount := 0 }
  file := file
  fg := fun _ => .idle
  s1 := .idle
  s2 := .idle
  closer := .running
  log := []

end NoxDB

import NoxDB.Engine.Backpressure
import NoxDB.Library.Monitors

/-! # The engine with all its mutexes

The step function of the engine makes a critical section one step.  Here each step also
takes the mutexes of its critical section one by one: the shard and page locks, the locks
of the two queues, `o->mtx` and the mutex of the watermark.  A thread whose condition does
not hold yet (the gate, a pop from an empty queue, `wb_guard_wait`, `otflush_drain`) sleeps
until the condition variable is signalled.  A shard or page lock that is held from one step
to the next is recorded by the engine itself.
-/

namespace NoxDB

open Library.Monitors

variable {n : Nat}

inductive Thread (n : Nat) where
  | fg (t : Fin n)
  | stage1
  | stage2
  | closer
deriving DecidableEq, Repr

inductive Mutex where
  | shard (i : Nat)
  | page (p : PageId)
  /-- `o->mtx` -/
  | flusher
  | queue1
  | queue2
  /-- `g_lock` of `watermark.c`. -/
  | watermark
deriving DecidableEq, Repr

/-- The order in which locks nest. -/
def Mutex.rank : Mutex → Nat
  | .shard _ => 0
  | .page _ => 1
  | _ => 2

inductive Condvar where
  /-- `g_cv` of `watermark.c`. -/
  | gate
  | queue1
  | queue2
  /-- `o->wb_done` -/
  | wbDone
  /-- `o->idle` -/
  | idle
deriving DecidableEq, Repr

/-- Who makes the step. -/
def Label.mover : Label n → Thread n
  | .call t _ | .fg t | .alloc t _ _ | .oom t | .pwrite t _ => .fg t
  | .stage1 | .pread _ => .stage1
  | .stage2 | .pwritev _ => .stage2
  | .close | .closer | .closeFd _ => .closer

/-! ## The mutexes of the next step -/

def Enqueue.mutex : Enqueue → Mutex
  | .partialInc | .fullInc | .fullEnter => .flusher
  | .partialPush => .queue1
  | .fullPush => .queue2

/-- A push signals the queue. -/
def Enqueue.signal : Enqueue → Option Condvar
  | .partialPush => some .queue1
  | .fullPush => some .queue2
  | _ => none

namespace Engine

/-- In `page_index_get_or_create` the allocation counts the page under the shard lock. -/
def fgWanted (s : Engine n) (base : Nat) : ChunkPc → List Mutex
  | .gate | .parked => [.watermark]
  | .lookup =>
    if (s.find base).isSome then [.shard (shardOf base)] else [.shard (shardOf base), .watermark]
  | .lockPage p => [.page p]
  | .enqueue _ e _ => [e.mutex]
  | .detach _ => [.shard (shardOf base)]
  | .held _ _ | .unlock _ _ => []

/-- A read error is latched under the page lock. -/
def stage1Wanted : Stage1 → List Mutex
  | .idle | .busyPush _ => [.queue1]
  | .popped p | .finish p true => [.page p]
  | .finish p false => [.page p, .flusher]
  | .forwardPush _ | .fillPush _ => [.queue2]
  | .forwardEnter _ | .fillEnter _ | .waitNotBusy | .guardWait _ _ | .reading _ []
  | .readFailed _ | .dropDec => [.flusher]
  | .readStart _ _ | .reading _ (_ :: _) | .exited => []

def stage2Wanted (s : Engine n) : Stage2 → List Mutex
  | .idle | .busyPush _ | .pushBack _ _ => [.queue2]
  | .collect batch => if batch.length < pwritevMaxIov then [.queue2] else []
  | .check _ p | .tagging _ p _ => [.page p]
  | .detaching _ (p :: _) =>
    if (s.pages p).detached then [] else [.shard (shardOf (s.pages p).base)]
  | .waitNotBusy | .written _ _ | .leaving _ _ _ | .decrement _ => [.flusher]
  | .latch _ ok => if ok then [] else [.flusher]
  | .freeing (_ :: _) => [.watermark]
  | .popped _ | .detaching _ [] | .writeStart _ | .writing _ _ | .freeing [] | .exited => []

def closerWanted : Closer → List Mutex
  | .disarm | .destroy _ => [.watermark]
  | .firstDrain | .secondDrain _ | .stopping _ | .lastCheck _ => [.flusher]
  | .sweep _ _ (some p) => [.page p]
  | .sweepEnqueue _ _ _ e => [e.mutex]
  | .shutdown1 _ => [.queue1]
  | .shutdown2 _ => [.queue2]
  | .running | .sweep _ _ none | .sweepUnlock _ _ _ | .sweepNext _ _ _ | .join1 _ | .join2 _
  | .closeFd _ | .returned _ | .fault => []

def wanted (s : Engine n) : Thread n → List Mutex
  | .fg t =>
    match s.fg t with
    | .scrap call done pc => s.fgWanted (call.base done) pc
    | _ => []
  | .stage1 => stage1Wanted s.s1
  | .stage2 => s.stage2Wanted s.s2
  | .closer => closerWanted s.closer

/-- The lock is held from one step to the next. -/
def busy (s : Engine n) : Mutex → Bool
  | .shard i => (s.shard i).isSome
  | .page p => (s.lock p).isSome
  | _ => false

/-! ## Waiting and signalling -/

def waitsOn (s : Engine n) : Thread n → Option Condvar
  | .fg t => if (s.fg t).isParked then some .gate else none
  | .stage1 =>
    match s.s1 with
    | .idle => some .queue1
    | .guardWait _ _ => some .wbDone
    | _ => none
  | .stage2 => if s.s2 = .idle then some .queue2 else none
  | .closer =>
    match s.closer with
    | .firstDrain | .secondDrain _ => some .idle
    | _ => none

/-- The condition a waiting thread tests. -/
def isReady (s : Engine n) : Thread n → Bool
  | .fg _ => !s.watermark.armed || s.watermark.live ≤ s.watermark.low
  | .stage1 =>
    match s.s1 with
    | .guardWait p _ => s.wb (wbSlot (s.pages p).base) == 0
    | _ => !s.q1.isEmpty || s.shut1
  | .stage2 => !s.q2.isEmpty || s.shut2
  | .closer => s.pending == 0

def stage1Signal (s : Engine n) : Option Condvar :=
  match s.s1 with
  | .busyPush _ => some .queue1
  | .forwardPush _ | .fillPush _ => some .queue2
  | .dropDec => if s.pending - 1 = 0 then some .idle else none
  | _ => none

def stage2Signal (s : Engine n) : Option Condvar :=
  match s.s2 with
  | .busyPush _ | .pushBack _ _ => some .queue2
  | .freeing (_ :: _) =>
    if s.watermark.armed = true ∧ s.watermark.live - 1 ≤ s.watermark.low then some .gate else none
  | .leaving _ _ _ => some .wbDone
  | .decrement _ => if s.pending - 1 = 0 then some .idle else none
  | _ => none

def closerSignal (s : Engine n) : Option Condvar :=
  match s.closer with
  | .disarm => some .gate
  | .sweepEnqueue _ _ _ e => Enqueue.signal e
  | .shutdown1 _ => some .queue1
  | .shutdown2 _ => some .queue2
  | _ => none

/-- What the step signals.  `o->not_busy` is left out: nobody ever waits for it. -/
def signal (s : Engine n) : Label n → Option Condvar
  | .fg t =>
    match s.fg t with
    | .scrap _ _ (.enqueue _ e _) => Enqueue.signal e
    | _ => none
  | .stage1 => s.stage1Signal
  | .stage2 => s.stage2Signal
  | .closer => s.closerSignal
  | _ => none

end Engine

/-- The engine as a system of threads with mutexes and condition variables. -/
def monitor (n : Nat) (cfg : Config) : Monitor (Engine n) (Label n) (Thread n) Mutex Condvar where
  step := Engine.step cfg
  thread := Label.mover
  wanted := Engine.wanted
  busy := Engine.busy
  waitsOn := Engine.waitsOn
  ready := Engine.isReady
  signals := Engine.signal

end NoxDB

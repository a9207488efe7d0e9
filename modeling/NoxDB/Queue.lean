import NoxDB.Engine.Batch
import NoxDB.Library.Links

/-! # The intrusive queues

`queue.c` with the statements of every call as steps of its thread: any number of threads push,
pop, pop by base, shut down and ask for the depth of two queues that share the `qnext` link of the
pages.  A mutex excludes calls on the same queue only; calls on the other queue, and the
`p->qnext = NULL` with which a push begins, come between any two steps.

`content`, `entry`, `pushed` and `popped` are ghost state that no step reads: the list a queue stands
for, that list when the mutex was taken, and all pages ever pushed and popped, with who popped them.
-/

namespace NoxDB

open Function (update)
open Library.Links
open Library.Locks
open Library.Runs
open Library.Counting

variable {n : Nat}

/-- The queues of `otflush`. -/
inductive QueueId
  | q1
  | q2
deriving DecidableEq, Repr

/-- `nox_queue_pop`, or `nox_queue_pop_if_base` with the base it wants. -/
inductive Take
  | any
  | ifBase (want : Nat)
deriving DecidableEq, Repr

/-- Where a thread is: before the named statement of its call. -/
inductive QueuePc
  | idle
  | clear (q : QueueId) (p : Nat)
  | lockPush (q : QueueId) (p : Nat)
  | link (q : QueueId) (p : Nat)
  | setTail (q : QueueId) (p : Nat)
  | incDepth (q : QueueId) (p : Nat)
  | signal (q : QueueId) (p : Nat)
  | unlockPush (q : QueueId) (p : Nat)
  /-- At `pthread_mutex_lock`, or woken inside `pthread_cond_wait`. -/
  | lockPop (q : QueueId)
  | test (q : QueueId)
  | asleep (q : QueueId)
  | lockPopIf (q : QueueId) (want : Nat)
  | testBase (q : QueueId) (want : Nat)
  | unlinkHead (q : QueueId) (take : Take)
  | clearTail (q : QueueId) (take : Take) (p : Nat)
  | decDepth (q : QueueId) (take : Take) (p : Nat)
  | clearNext (q : QueueId) (take : Take) (p : Nat)
  | unlockPop (q : QueueId) (take : Take) (result : Option Nat)
  | lockShutdown (q : QueueId)
  | setShutdown (q : QueueId)
  | broadcast (q : QueueId)
  | unlockShutdown (q : QueueId)
  | lockDepth (q : QueueId)
  | readDepth (q : QueueId)
  | unlockDepth (q : QueueId) (depth : Nat)
deriving DecidableEq, Repr

/-- `struct nox_queue`, with its history. -/
structure NoxQueue (n : Nat) where
  head : Option Nat
  tail : Option Nat
  depth : Nat
  shutdown : Bool
  content : List Nat
  entry : List Nat
  pushed : List Nat
  popped : List (Nat × Fin n)

structure Queues (n : Nat) where
  qnext : Nat → Option Nat
  queue : QueueId → NoxQueue n
  lock : QueueId → Option (Fin n)
  pc : Fin n → QueuePc

/-- The calls of a thread, its next statement, `pthread_cond_signal` with the thread it wakes, and a
wakeup without a signal. -/
inductive QueueLabel (n : Nat)
  | push (t : Fin n) (q : QueueId) (p : Nat)
  | pop (t : Fin n) (q : QueueId)
  | popIfBase (t : Fin n) (q : QueueId) (want : Nat)
  | shutdown (t : Fin n) (q : QueueId)
  | depth (t : Fin n) (q : QueueId)
  | step (t : Fin n)
  | signal (t : Fin n) (woken : Option (Fin n))
  | spurious (t : Fin n)
deriving DecidableEq, Repr

namespace Queues

/-- `nox_queue_create`, twice; the links of the pages are whatever they are. -/
def create (n : Nat) (qnext : Nat → Option Nat) : Queues n where
  qnext := qnext
  queue := fun _ =>
    { head := none, tail := none, depth := 0, shutdown := false
      content := [], entry := [], pushed := [], popped := [] }
  lock := fun _ => none
  pc := fun _ => .idle

def setPc (s : Queues n) (t : Fin n) (pc : QueuePc) : Queues n := { s with pc := update s.pc t pc }

def setQueue (s : Queues n) (q : QueueId) (queue : NoxQueue n) : Queues n :=
  { s with queue := update s.queue q queue }

/-- `pthread_mutex_lock`, once the mutex is free. -/
def acquire (s : Queues n) (t : Fin n) (q : QueueId) (pc : QueuePc) : Option (Queues n) :=
  if s.lock q = none then
    some { (s.setQueue q { s.queue q with entry := (s.queue q).content }).setPc t pc with
      lock := update s.lock q (some t) }
  else none

/-- `pthread_mutex_unlock` -/
def release (s : Queues n) (t : Fin n) (q : QueueId) (pc : QueuePc) : Queues n :=
  { s.setPc t pc with lock := update s.lock q none }

/-- `if (q->tail) q->tail->qnext = p; else q->head = p;` -/
def link (s : Queues n) (q : QueueId) (p : Nat) : Queues n :=
  let queue := { s.queue q with
    content := (s.queue q).content ++ [p]
    pushed := (s.queue q).pushed ++ [p] }
  match (s.queue q).tail with
  | some last => { s.setQueue q queue with qnext := update s.qnext last (some p) }
  | none => s.setQueue q { queue with head := some p }

/-- `pthread_cond_broadcast`: the sleepers of `q` have to take the mutex again. -/
def wakeAll (s : Queues n) (q : QueueId) : Queues n :=
  { s with pc := fun u => if s.pc u = .asleep q then .lockPop q else s.pc u }

/-- The next statement of thread `t`. -/
def advance (base : Nat → Nat) (s : Queues n) (t : Fin n) : Option (Queues n) :=
  match s.pc t with
  | .clear q p => some ({ s with qnext := update s.qnext p none }.setPc t (.lockPush q p))
  | .lockPush q p => s.acquire t q (.link q p)
  -- A push takes effect here: the page is behind the others from now on.
  | .link q p => some ((s.link q p).setPc t (.setTail q p))
  | .setTail q p => some ((s.setQueue q { s.queue q with tail := some p }).setPc t (.incDepth q p))
  | .incDepth q p =>
    some ((s.setQueue q { s.queue q with depth := (s.queue q).depth + 1 }).setPc t (.signal q p))
  | .unlockPush q _ => some (s.release t q .idle)
  | .lockPop q => s.acquire t q (.test q)
  -- `pthread_cond_wait` gives the mutex up and sleeps in one step.
  | .test q =>
    if (s.queue q).head = none ∧ (s.queue q).shutdown = false then some (s.release t q (.asleep q))
    else some (s.setPc t (.unlinkHead q .any))
  | .lockPopIf q want => s.acquire t q (.testBase q want)
  | .testBase q want =>
    if (s.queue q).head.any (fun p => base p == want) then
      some (s.setPc t (.unlinkHead q (.ifBase want)))
    else some (s.setPc t (.unlockPop q (.ifBase want) none))
  -- A pop takes effect here.
  | .unlinkHead q take =>
    match (s.queue q).head with
    | none => some (s.setPc t (.unlockPop q take none))
    | some p =>
      some ((s.setQueue q { s.queue q with
        head := s.qnext p
        content := (s.queue q).content.tail
        popped := (s.queue q).popped ++ [(p, t)] }).setPc t (.clearTail q take p))
  | .clearTail q take p =>
    some ((s.setQueue q { s.queue q with
      tail := if (s.queue q).head = none then none else (s.queue q).tail }).setPc t
        (.decDepth q take p))
  | .decDepth q take p =>
    some ((s.setQueue q { s.queue q with depth := (s.queue q).depth - 1 }).setPc t
      (.clearNext q take p))
  | .clearNext q take p =>
    some ({ s with qnext := update s.qnext p none }.setPc t (.unlockPop q take (some p)))
  | .unlockPop q _ _ => some (s.release t q .idle)
  | .lockShutdown q => s.acquire t q (.setShutdown q)
  | .setShutdown q =>
    some ((s.setQueue q { s.queue q with shutdown := true }).setPc t (.broadcast q))
  | .broadcast q => some ((s.wakeAll q).setPc t (.unlockShutdown q))
  | .unlockShutdown q => some (s.release t q .idle)
  | .lockDepth q => s.acquire t q (.readDepth q)
  | .readDepth q => some (s.setPc t (.unlockDepth q (s.queue q).depth))
  | .unlockDepth q _ => some (s.release t q .idle)
  -- Outside a call, asleep, or at the call that has a label of its own.
  | .idle | .asleep _ | .signal _ _ => none

/-- `pthread_cond_signal` wakes one of the sleepers if there is one. -/
def signal (s : Queues n) (t : Fin n) (woken : Option (Fin n)) : Option (Queues n) :=
  match s.pc t with
  | .signal q p =>
    match woken with
    | some u =>
      if s.pc u = .asleep q then some ((s.setPc u (.lockPop q)).setPc t (.unlockPush q p)) else none
    | none => if ∃ u, s.pc u = .asleep q then none else some (s.setPc t (.unlockPush q p))
  | _ => none

def step (base : Nat → Nat) (s : Queues n) : QueueLabel n → Option (Queues n)
  | .push t q p => if s.pc t = .idle then some (s.setPc t (.clear q p)) else none
  | .pop t q => if s.pc t = .idle then some (s.setPc t (.lockPop q)) else none
  | .popIfBase t q want => if s.pc t = .idle then some (s.setPc t (.lockPopIf q want)) else none
  | .shutdown t q => if s.pc t = .idle then some (s.setPc t (.lockShutdown q)) else none
  | .depth t q => if s.pc t = .idle then some (s.setPc t (.lockDepth q)) else none
  | .step t => s.advance base t
  | .signal t woken => s.signal t woken
  | .spurious t =>
    match s.pc t with
    | .asleep q => some (s.setPc t (.lockPop q))
    | _ => none

end Queues

/-! ## What a step can do -/

/-- The thread that makes a call, and where the call begins. -/
def QueueLabel.start : QueueLabel n → Option (Fin n × QueuePc)
  | .push t q p => some (t, .clear q p)
  | .pop t q => some (t, .lockPop q)
  | .popIfBase t q want => some (t, .lockPopIf q want)
  | .shutdown t q => some (t, .lockShutdown q)
  | .depth t q => some (t, .lockDepth q)
  | _ => none

namespace QueuePc

/-- The queue whose mutex is about to be taken, and what follows. -/
def entering : QueuePc → Option (QueueId × QueuePc)
  | .lockPush q p => some (q, .link q p)
  | .lockPop q => some (q, .test q)
  | .lockPopIf q want => some (q, .testBase q want)
  | .lockShutdown q => some (q, .setShutdown q)
  | .lockDepth q => some (q, .readDepth q)
  | _ => none

/-- The queue whose mutex is about to be given up for good. -/
def leaving : QueuePc → Option QueueId
  | .unlockPush q _ | .unlockPop q _ _ | .unlockShutdown q | .unlockDepth q _ => some q
  | _ => none

end QueuePc

inductive QueueMove (base : Nat → Nat) (s : Queues n) : QueueLabel n → Queues n → Prop
  | call {t label pc} (position : s.pc t = .idle) (starts : label.start = some (t, pc)) :
      QueueMove base s label { s with pc := update s.pc t pc }
  | clear {t q p} (position : s.pc t = .clear q p) :
      QueueMove base s (.step t)
        { s with qnext := update s.qnext p none, pc := update s.pc t (.lockPush q p) }
  | acquire {t q pc} (position : (s.pc t).entering = some (q, pc)) (free : s.lock q = none) :
      QueueMove base s (.step t)
        { s with
          queue := update s.queue q { s.queue q with entry := (s.queue q).content }
          lock := update s.lock q (some t)
          pc := update s.pc t pc }
  | linkFirst {t q p} (position : s.pc t = .link q p) (empty : (s.queue q).tail = none) :
      QueueMove base s (.step t)
        { s with
          queue := update s.queue q
            { s.queue q with
              head := some p
              content := (s.queue q).content ++ [p]
              pushed := (s.queue q).pushed ++ [p] }
          pc := update s.pc t (.setTail q p) }
  | linkLast {t q p last} (position : s.pc t = .link q p) (used : (s.queue q).tail = some last) :
      QueueMove base s (.step t)
        { s with
          qnext := update s.qnext last (some p)
          queue := update s.queue q
            { s.queue q with
              content := (s.queue q).content ++ [p]
              pushed := (s.queue q).pushed ++ [p] }
          pc := update s.pc t (.setTail q p) }
  | setTail {t q p} (position : s.pc t = .setTail q p) :
      QueueMove base s (.step t)
        { s with
          queue := update s.queue q { s.queue q with tail := some p }
          pc := update s.pc t (.incDepth q p) }
  | incDepth {t q p} (position : s.pc t = .incDepth q p) :
      QueueMove base s (.step t)
        { s with
          queue := update s.queue q { s.queue q with depth := (s.queue q).depth + 1 }
          pc := update s.pc t (.signal q p) }
  | signalOne {t q p u} (position : s.pc t = .signal q p) (sleeps : s.pc u = .asleep q) :
      QueueMove base s (.signal t (some u))
        { s with pc := update (update s.pc u (.lockPop q)) t (.unlockPush q p) }
  | signalNone {t q p} (position : s.pc t = .signal q p) (awake : ∀ u, s.pc u ≠ .asleep q) :
      QueueMove base s (.signal t none) { s with pc := update s.pc t (.unlockPush q p) }
  | sleep {t q} (position : s.pc t = .test q) (empty : (s.queue q).head = none)
      (running : (s.queue q).shutdown = false) :
      QueueMove base s (.step t)
        { s with lock := update s.lock q none, pc := update s.pc t (.asleep q) }
  | go {t q} (position : s.pc t = .test q)
      (ready : (s.queue q).head ≠ none ∨ (s.queue q).shutdown = true) :
      QueueMove base s (.step t) { s with pc := update s.pc t (.unlinkHead q .any) }
  | hit {t q want p} (position : s.pc t = .testBase q want) (first : (s.queue q).head = some p)
      (wanted : base p = want) :
      QueueMove base s (.step t) { s with pc := update s.pc t (.unlinkHead q (.ifBase want)) }
  | miss {t q want} (position : s.pc t = .testBase q want)
      (unwanted : ∀ p, (s.queue q).head = some p → base p ≠ want) :
      QueueMove base s (.step t) { s with pc := update s.pc t (.unlockPop q (.ifBase want) none) }
  | nothing {t q take} (position : s.pc t = .unlinkHead q take) (empty : (s.queue q).head = none) :
      QueueMove base s (.step t) { s with pc := update s.pc t (.unlockPop q take none) }
  | unlink {t q take p} (position : s.pc t = .unlinkHead q take)
      (first : (s.queue q).head = some p) :
      QueueMove base s (.step t)
        { s with
          queue := update s.queue q
            { s.queue q with
              head := s.qnext p
              content := (s.queue q).content.tail
              popped := (s.queue q).popped ++ [(p, t)] }
          pc := update s.pc t (.clearTail q take p) }
  | clearTail {t q take p} (position : s.pc t = .clearTail q take p) :
      QueueMove base s (.step t)
        { s with
          queue := update s.queue q
            { s.queue q with
              tail := if (s.queue q).head = none then none else (s.queue q).tail }
          pc := update s.pc t (.decDepth q take p) }
  | decDepth {t q take p} (position : s.pc t = .decDepth q take p) :
      QueueMove base s (.step t)
        { s with
          queue := update s.queue q { s.queue q with depth := (s.queue q).depth - 1 }
          pc := update s.pc t (.clearNext q take p) }
  | clearNext {t q take p} (position : s.pc t = .clearNext q take p) :
      QueueMove base s (.step t)
        { s with
          qnext := update s.qnext p none
          pc := update s.pc t (.unlockPop q take (some p)) }
  | setShutdown {t q} (position : s.pc t = .setShutdown q) :
      QueueMove base s (.step t)
        { s with
          queue := update s.queue q { s.queue q with shutdown := true }
          pc := update s.pc t (.broadcast q) }
  | broadcast {t q} (position : s.pc t = .broadcast q) :
      QueueMove base s (.step t)
        { s with
          pc := update (fun u => if s.pc u = .asleep q then .lockPop q else s.pc u) t
            (.unlockShutdown q) }
  | readDepth {t q} (position : s.pc t = .readDepth q) :
      QueueMove base s (.step t)
        { s with pc := update s.pc t (.unlockDepth q (s.queue q).depth) }
  | release {t q} (position : (s.pc t).leaving = some q) :
      QueueMove base s (.step t)
        { s with lock := update s.lock q none, pc := update s.pc t .idle }
  | spurious {t q} (position : s.pc t = .asleep q) :
      QueueMove base s (.spurious t) { s with pc := update s.pc t (.lockPop q) }

variable {base : Nat → Nat} {s s' : Queues n} {label : QueueLabel n}

theorem queueMove_of_acquire {t : Fin n} {q : QueueId} {pc : QueuePc}
    (position : (s.pc t).entering = some (q, pc)) (stepped : s.acquire t q pc = some s') :
    QueueMove base s (.step t) s' := by
  rw [Queues.acquire] at stepped
  split at stepped
  · next free =>
    cases stepped
    exact .acquire position free
  · contradiction

theorem queueMove_of_advance {t : Fin n} (stepped : s.advance base t = some s') :
    QueueMove base s (.step t) s' := by
  rw [Queues.advance] at stepped
  cases position : s.pc t with
  | clear q p =>
    rw [position] at stepped
    cases stepped
    exact .clear position
  | lockPush | lockPop | lockPopIf | lockShutdown | lockDepth =>
    rw [position] at stepped
    exact queueMove_of_acquire (by rw [position]; rfl) stepped
  | link q p =>
    rw [position] at stepped
    cases stepped
    rw [Queues.link]
    split
    · next last used => exact .linkLast position used
    · next empty => exact .linkFirst position empty
  | setTail | incDepth | clearTail | decDepth | clearNext | setShutdown | broadcast =>
    rw [position] at stepped
    cases stepped
    constructor
    exact position
  | readDepth q =>
    rw [position] at stepped
    cases stepped
    exact .readDepth position
  | unlockPush | unlockPop | unlockShutdown | unlockDepth =>
    rw [position] at stepped
    cases stepped
    exact .release (by rw [position]; rfl)
  | test q =>
    rw [position] at stepped
    simp only at stepped
    split at stepped
    · next idle =>
      cases stepped
      exact .sleep position idle.1 idle.2
    -- The loop is left if there is a page or the queue was shut down.
    · next busy =>
      cases stepped
      refine .go position ?_
      by_contra neither
      rw [not_or, not_not, Bool.not_eq_true] at neither
      exact busy neither
  | testBase q want =>
    rw [position] at stepped
    simp only at stepped
    cases first : (s.queue q).head with
    | none =>
      simp only [first, Option.any_none] at stepped
      cases stepped
      exact .miss position (by simp [first])
    | some p =>
      simp only [first, Option.any_some, beq_iff_eq] at stepped
      split at stepped
      · next wanted =>
        cases stepped
        exact .hit position first wanted
      · next unwanted =>
        cases stepped
        exact .miss position (by simpa [first] using unwanted)
  | unlinkHead q take =>
    rw [position] at stepped
    simp only at stepped
    cases first : (s.queue q).head with
    | none =>
      simp only [first] at stepped
      cases stepped
      exact .nothing position first
    | some p =>
      simp only [first] at stepped
      cases stepped
      exact .unlink position first
  | idle | asleep | signal =>
    rw [position] at stepped
    contradiction

theorem queueMove_of_step (stepped : s.step base label = some s') : QueueMove base s label s' := by
  cases label with
  | push t q p | pop t q | popIfBase t q want | shutdown t q | depth t q =>
    rw [Queues.step] at stepped
    split at stepped
    · next idle =>
      cases stepped
      exact .call idle rfl
    · contradiction
  | step t => exact queueMove_of_advance stepped
  | signal t woken =>
    rw [Queues.step, Queues.signal] at stepped
    split at stepped
    · next q p position =>
      cases woken with
      | none =>
        simp only at stepped
        split at stepped
        · contradiction
        · next awake =>
          cases stepped
          exact .signalNone position (not_exists.mp awake)
      | some u =>
        simp only at stepped
        split at stepped
        · next sleeps =>
          cases stepped
          exact .signalOne position sleeps
        · contradiction
    · contradiction
  | spurious t =>
    rw [Queues.step] at stepped
    split at stepped
    · next q position =>
      cases stepped
      exact .spurious position
    · contradiction

end NoxDB

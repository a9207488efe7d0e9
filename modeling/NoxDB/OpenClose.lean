import NoxDB.Queue
import NoxDB.Library.Resources

/-! # Opening and closing the engine

`nox_open` and `nox_close` with the constructors and destructors that they call, as code that
acquires and releases: memory, the file descriptor, mutexes, condition variables and threads.
Every call that can fail may fail here, in any combination, and the numbers of shards and of
threads are arbitrary.  The waiting of `nox_close` (its two drains and its sweep) acquires and
releases nothing of this kind and is not repeated here.

What a resource rests on is read off the code that uses it.  In particular a flush thread
uses everything that `otflush_start` was given or has made, and the gate may be armed only
while all flush threads run, because only they can open it again.
-/

namespace NoxDB

open Library.Resources Library.Resources.Discipline

inductive Resource where
  | engine
  | fd
  | index
  | shard (s : Nat)
  | flusher
  | mtx
  | idle
  | notBusy
  | wbDone
  | queue (q : QueueId)
  | queueLock (q : QueueId)
  | notEmpty (q : QueueId)
  /-- The flag that `nox_queue_shutdown` sets. -/
  | shutdown (q : QueueId)
  /-- A thread of the stage that takes its pages from `q`. -/
  | thread (q : QueueId) (i : Nat)
  /-- The armed gate of `watermark.c`. -/
  | gate
deriving DecidableEq, Repr

/-- `NOX_INDEX_SHARDS`, `NOX_STAGE1_THREADS` and `NOX_STAGE2_THREADS`. -/
structure Sizes where
  shards : Nat
  threads : QueueId → Nat

namespace Sizes

variable (sizes : Sizes)

def queueParts (q : QueueId) : Finset Resource := {.notEmpty q, .queueLock q, .queue q}

/-- A queue after `nox_queue_shutdown`. -/
def shutParts (q : QueueId) : Finset Resource := insert (.shutdown q) (queueParts q)

def indexParts : Finset Resource := family .shard 0 sizes.shards ∪ {.index}

def allThreads : Finset Resource :=
  family (.thread .q2) 0 (sizes.threads .q2) ∪ family (.thread .q1) 0 (sizes.threads .q1)

/-- The fields of `struct otflush` other than its queues, and the structure itself. -/
def flusherFields : Finset Resource := {.wbDone, .notBusy, .idle, .mtx, .flusher}

/-- What `otflush_start` makes before it starts its threads. -/
def flusherParts : Finset Resource :=
  queueParts .q1 ∪ (queueParts .q2 ∪ flusherFields)

def restsOn : Resource → Finset Resource
  | .engine => ∅
  | .fd | .index | .flusher => {.engine}
  | .shard _ => {.index}
  | .mtx | .idle | .notBusy | .wbDone | .queue _ => {.flusher}
  | .queueLock q | .notEmpty q => {.queue q}
  | .shutdown q => queueParts q
  | .thread _ _ => flusherParts ∪ (sizes.indexParts ∪ {.fd})
  | .gate => sizes.allThreads

/-- A thread that was not told to end is never joined: the join would not return. -/
def toRelease : Resource → Finset Resource
  | .thread q _ => {.shutdown q}
  | _ => ∅

def discipline : Discipline Resource where
  restsOn := sizes.restsOn
  toRelease := toRelease

end Sizes

section Code

variable (d : Discipline Resource)

/-- `nox_queue_create` -/
def noxQueueCreate (q : QueueId) : Prog Resource Bool := do
  if !(← d.acquire (.queue q)) then
    return false
  if !(← d.acquire (.queueLock q)) then
    d.release (.queue q)
    return false
  if !(← d.acquire (.notEmpty q)) then
    d.release (.queueLock q)
    d.release (.queue q)
    return false
  return true

/-- `nox_queue_destroy` of a queue that was made; the flag goes with the structure. -/
def noxQueueDestroy (q : QueueId) : Prog Resource Unit := do
  discard (.shutdown q)
  d.release (.notEmpty q)
  d.release (.queueLock q)
  d.release (.queue q)

/-- `nox_queue_destroy` of a pointer that may be `NULL`. -/
def noxQueueDestroyIf (q : QueueId) (made : Bool) : Prog Resource Unit :=
  if made then noxQueueDestroy d q else pure ()

/-- `page_index_create` -/
def pageIndexCreate (sizes : Sizes) : Prog Resource Bool := do
  if !(← d.acquire .index) then
    return false
  let made ← d.acquireFrom .shard 0 sizes.shards
  if made < sizes.shards then
    d.releaseFrom .shard 0 made
    d.release .index
    return false
  return true

/-- `page_index_destroy`, without the pages of the buckets. -/
def pageIndexDestroy (sizes : Sizes) : Prog Resource Unit := do
  d.releaseFrom .shard 0 sizes.shards
  d.release .index

/-- The label `fail_mtx` of `otflush_start`. -/
def failMtx : Prog Resource Bool := do
  d.release .mtx
  d.release .flusher
  return false

/-- The label `fail_idle`. -/
def failIdle : Prog Resource Bool := do
  d.release .idle
  failMtx d

/-- The label `fail_not_busy`. -/
def failNotBusy : Prog Resource Bool := do
  d.release .notBusy
  failIdle d

/-- The label `fail_q`. -/
def failQ (made1 made2 : Bool) : Prog Resource Bool := do
  noxQueueDestroyIf d .q1 made1
  noxQueueDestroyIf d .q2 made2
  d.release .wbDone
  failNotBusy d

/-- The label `fail_threads`, with `s1_n` and `s2_n`. -/
def failThreads (s1 s2 : Nat) : Prog Resource Bool := do
  d.establish (.shutdown .q1)
  d.establish (.shutdown .q2)
  d.releaseFrom (.thread .q1) 0 s1
  d.releaseFrom (.thread .q2) 0 s2
  failQ d true true

/-- The two thread loops of `otflush_start`. -/
def startThreads (sizes : Sizes) : Prog Resource Bool := do
  let s1 ← d.acquireFrom (.thread .q1) 0 (sizes.threads .q1)
  if s1 < sizes.threads .q1 then
    failThreads d s1 0
  else
    let s2 ← d.acquireFrom (.thread .q2) 0 (sizes.threads .q2)
    if s2 < sizes.threads .q2 then
      failThreads d (sizes.threads .q1) s2
    else
      return true

/-- `otflush_start` -/
def otflushStart (sizes : Sizes) : Prog Resource Bool := do
  if !(← d.acquire .flusher) then
    return false
  if !(← d.acquire .mtx) then
    d.release .flusher
    return false
  if !(← d.acquire .idle) then
    failMtx d
  else if !(← d.acquire .notBusy) then
    failIdle d
  else if !(← d.acquire .wbDone) then
    failNotBusy d
  else
    let made1 ← noxQueueCreate d .q1
    let made2 ← noxQueueCreate d .q2
    if !made1 || !made2 then
      failQ d made1 made2
    else
      startThreads d sizes

/-- The end of `otflush_stop`, after the last join. -/
def otflushDestroy : Prog Resource Unit := do
  noxQueueDestroy d .q1
  noxQueueDestroy d .q2
  d.release .wbDone
  d.release .notBusy
  d.release .idle
  d.release .mtx
  d.release .flusher

/-- `otflush_stop` after its drain: the threads of Stage-1 are joined before Q2 is shut down,
because they push into it. -/
def otflushStop (sizes : Sizes) : Prog Resource Unit := do
  d.establish (.shutdown .q1)
  d.releaseFrom (.thread .q1) 0 (sizes.threads .q1)
  d.establish (.shutdown .q2)
  d.releaseFrom (.thread .q2) 0 (sizes.threads .q2)
  otflushDestroy d

/-- `nox_open` -/
def noxOpen (sizes : Sizes) : Prog Resource Bool := do
  if !(← d.acquire .engine) then
    return false
  if !(← d.acquire .fd) then
    d.release .engine
    return false
  if !(← pageIndexCreate d sizes) then
    d.release .fd
    d.release .engine
    return false
  if !(← otflushStart d sizes) then
    pageIndexDestroy d sizes
    d.release .fd
    d.release .engine
    return false
  d.establish .gate
  return true

/-- `nox_close` -/
def noxClose (sizes : Sizes) : Prog Resource Unit := do
  d.release .gate
  otflushStop d sizes
  pageIndexDestroy d sizes
  d.release .fd
  d.release .engine

end Code

/-! ## What each function frees and completes -/

variable {sizes : Sizes} {context : Finset Resource} {q : QueueId}

/-- A part of the flusher before its threads are started. -/
def Resource.isPart : Resource → Bool
  | .thread _ _ | .shutdown _ | .gate => false
  | _ => true

@[simp] theorem isPart_thread (i : Nat) : (Resource.thread q i).isPart = false := by
  simp [Resource.isPart]

@[simp] theorem isPart_shutdown : (Resource.shutdown q).isPart = false := by
  simp [Resource.isPart]

@[simp] theorem isPart_gate : Resource.gate.isPart = false := by
  simp [Resource.isPart]

theorem notMem_queueParts {r : Resource} (other : r.isPart = false) : r ∉ Sizes.queueParts q := by
  intro mem
  simp only [Sizes.queueParts, Finset.mem_insert, Finset.mem_singleton] at mem
  rcases mem with rfl | rfl | rfl <;> cases other

theorem notMem_flusherFields {r : Resource} (other : r.isPart = false) :
    r ∉ Sizes.flusherFields := by
  intro mem
  simp only [Sizes.flusherFields, Finset.mem_insert, Finset.mem_singleton] at mem
  rcases mem with rfl | rfl | rfl | rfl | rfl <;> cases other

theorem notMem_flusherParts {r : Resource} (other : r.isPart = false) :
    r ∉ Sizes.flusherParts := by
  simp only [Sizes.flusherParts, Finset.mem_union, notMem_queueParts other,
    notMem_flusherFields other, or_self, not_false_eq_true]

theorem queueParts_frees :
    sizes.discipline.Frees ∅ (Sizes.queueParts q) (do
      sizes.discipline.release (.notEmpty q)
      sizes.discipline.release (.queueLock q)
      sizes.discipline.release (.queue q)) () := by
  refine Frees.release (Frees.release (Frees.one ?_ ?_) ?_ ?_ ?_ ?_) ?_ ?_ ?_ ?_ <;>
    simp [Sizes.discipline, Sizes.restsOn, Sizes.toRelease]

theorem noxQueueDestroy_frees :
    sizes.discipline.Frees ∅ (Sizes.queueParts q) (noxQueueDestroy sizes.discipline q) () := by
  refine Frees.discard queueParts_frees ?_ ?_ <;>
    simp [Sizes.discipline, Sizes.restsOn, Sizes.queueParts]

theorem noxQueueDestroy_frees_shut :
    sizes.discipline.Frees ∅ (Sizes.shutParts q)
      (noxQueueDestroy sizes.discipline q) () := by
  refine Frees.discard_held queueParts_frees ?_
  simp [Sizes.queueParts]

theorem noxQueueDestroyIf_frees (made : Bool) :
    sizes.discipline.Frees ∅ (if made then Sizes.queueParts q else ∅)
      (noxQueueDestroyIf sizes.discipline q made) () := by
  cases made with
  | false => exact Frees.pure
  | true => exact noxQueueDestroy_frees

theorem noxQueueCreate_completes :
    sizes.discipline.Completes {.flusher} (Sizes.queueParts q) ∅
      (noxQueueCreate sizes.discipline q) := by
  refine Completes.first (Completes.acquire (Frees.last ?_ ?_)
    (Completes.acquire (Frees.release (Frees.last ?_ ?_) ?_ ?_ ?_ ?_) Completes.pure
      ?_ ?_ ?_ ?_) ?_ ?_ ?_ ?_) ?_ ?_ <;>
    simp [Sizes.discipline, Sizes.restsOn, Sizes.toRelease, Sizes.queueParts]

theorem shards_free (n : Nat) :
    sizes.discipline.Frees context (family .shard 0 n)
      (sizes.discipline.releaseFrom .shard 0 n) () := by
  refine Frees.releaseFrom (fun _ _ same => Resource.shard.inj same) ?_ ?_ 0 n <;>
    simp [Sizes.discipline, Sizes.restsOn, Sizes.toRelease]

theorem pageIndexDestroy_frees :
    sizes.discipline.Frees context sizes.indexParts
      (pageIndexDestroy sizes.discipline sizes) () := by
  refine (shards_free sizes.shards).call (Frees.one ?_ ?_) (Finset.empty_subset _) ?_ <;>
    simp [Discipline.Apart, mem_family, Sizes.discipline, Sizes.restsOn, Sizes.toRelease]

theorem pageIndexCreate_completes :
    sizes.discipline.Completes {.engine} sizes.indexParts ∅
      (pageIndexCreate sizes.discipline sizes) := by
  have undone : ∀ k < sizes.shards, sizes.discipline.Frees {.engine}
      (family .shard 0 k ∪ {.index}) (do
        sizes.discipline.releaseFrom .shard 0 k
        sizes.discipline.release .index
        return false) false := by
    intro k _
    refine (shards_free k).call (Frees.last ?_ ?_) (Finset.empty_subset _) ?_ <;>
      simp [Discipline.Apart, mem_family, Sizes.discipline, Sizes.restsOn, Sizes.toRelease]
  refine Completes.first (Completes.loop (fun _ _ same => Resource.shard.inj same) ?_ ?_ undone
    Completes.pure (Finset.Subset.refl _)) ?_ ?_ <;>
    simp [Sizes.discipline, Sizes.restsOn, Sizes.indexParts]

theorem failMtx_frees :
    sizes.discipline.Frees context {.mtx, .flusher} (failMtx sizes.discipline) false := by
  refine Frees.release (Frees.last ?_ ?_) ?_ ?_ ?_ ?_ <;>
    simp [Sizes.discipline, Sizes.restsOn, Sizes.toRelease]

theorem failIdle_frees :
    sizes.discipline.Frees context {.idle, .mtx, .flusher} (failIdle sizes.discipline) false := by
  refine Frees.release failMtx_frees ?_ ?_ ?_ ?_ <;>
    simp [Sizes.discipline, Sizes.restsOn, Sizes.toRelease]

theorem failNotBusy_frees :
    sizes.discipline.Frees context {.notBusy, .idle, .mtx, .flusher}
      (failNotBusy sizes.discipline) false := by
  refine Frees.release failIdle_frees ?_ ?_ ?_ ?_ <;>
    simp [Sizes.discipline, Sizes.restsOn, Sizes.toRelease]

/-- Only the parts of a queue and the threads rest on a queue. -/
theorem queue_apart {own : Finset Resource} (others : Disjoint (Sizes.shutParts q) own)
    (joined : ∀ p i, .thread p i ∉ own) (disarmed : .gate ∉ own) :
    sizes.discipline.Apart (Sizes.shutParts q) own := by
  intro r mem
  refine ⟨Finset.disjoint_left.mp others mem, fun x here => ?_⟩
  have other := Finset.disjoint_right.mp others here
  simp only [Sizes.shutParts, Sizes.queueParts, Finset.mem_insert, Finset.mem_singleton] at mem
  cases x with
  | thread p i => exact absurd here (joined p i)
  | gate => exact absurd here disarmed
  | _ =>
    rcases mem with rfl | rfl | rfl | rfl <;>
      simp_all [Sizes.discipline, Sizes.restsOn, Sizes.shutParts, Sizes.queueParts, eq_comm]

/-- Both queues are destroyed, whichever of them were made and shut down, and then the rest of
the flusher. -/
theorem queues_free {α : Type} {first second : Finset Resource}
    {destroyOne destroyTwo : Prog Resource Unit} {p : Prog Resource α} {a : α}
    (freesOne : sizes.discipline.Frees ∅ first destroyOne ())
    (freesTwo : sizes.discipline.Frees ∅ second destroyTwo ())
    (next : sizes.discipline.Frees context Sizes.flusherFields p a)
    (insideOne : first ⊆ Sizes.shutParts .q1)
    (insideTwo : second ⊆ Sizes.shutParts .q2) :
    sizes.discipline.Frees context (first ∪ (second ∪ Sizes.flusherFields)) (do
      destroyOne
      destroyTwo
      p) a := by
  have apartTwo : sizes.discipline.Apart second Sizes.flusherFields := by
    refine (queue_apart ?_ ?_ ?_).mono insideTwo <;>
      simp [Sizes.shutParts, Sizes.queueParts, Sizes.flusherFields]
  have apartOne : sizes.discipline.Apart first (second ∪ Sizes.flusherFields) := by
    refine ((queue_apart ?_ ?_ ?_).mono insideOne).fewer
      (Finset.union_subset_union_left insideTwo) <;>
      simp [Sizes.shutParts, Sizes.queueParts, Sizes.flusherFields]
  exact freesOne.call (freesTwo.call next (Finset.empty_subset _) apartTwo)
    (Finset.empty_subset _) apartOne

theorem wbDone_frees :
    sizes.discipline.Frees context Sizes.flusherFields (do
      sizes.discipline.release .wbDone
      failNotBusy sizes.discipline) false := by
  refine Frees.release failNotBusy_frees ?_ ?_ ?_ ?_ <;>
    simp [Sizes.discipline, Sizes.restsOn, Sizes.toRelease]

theorem failQ_frees (made1 made2 : Bool) :
    sizes.discipline.Frees context
      ((if made1 then Sizes.queueParts .q1 else ∅) ∪
        ((if made2 then Sizes.queueParts .q2 else ∅) ∪ Sizes.flusherFields))
      (failQ sizes.discipline made1 made2) false := by
  refine queues_free (noxQueueDestroyIf_frees made1) (noxQueueDestroyIf_frees made2)
    wbDone_frees ?_ ?_
  · cases made1 <;> simp [Sizes.shutParts]
  · cases made2 <;> simp [Sizes.shutParts]

/-- The threads of a stage are joined after the stage was told to end and while the gate is
not armed. -/
theorem threads_free {α : Type} {own : Finset Resource} {p : Prog Resource α} {a : α} (n : Nat)
    (next : sizes.discipline.Frees context own p a) (shut : .shutdown q ∈ own)
    (joined : ∀ i, .thread q i ∉ own) (disarmed : .gate ∉ own) :
    sizes.discipline.Frees context (family (.thread q) 0 n ∪ own) (do
      sizes.discipline.releaseFrom (.thread q) 0 n
      p) a := by
  have unrelated : ∀ j k, .thread q k ∉ sizes.discipline.restsOn (.thread q j) := by
    simp [Sizes.discipline, Sizes.restsOn, notMem_flusherParts, Sizes.indexParts, mem_family]
  have joins : sizes.discipline.Frees {.shutdown q} (family (.thread q) 0 n)
      (sizes.discipline.releaseFrom (.thread q) 0 n) () :=
    Frees.releaseFrom (fun _ _ same => (Resource.thread.inj same).2) unrelated
      (fun _ => Finset.Subset.refl _) 0 n
  refine joins.call next (by simp [shut]) ?_
  intro r mem
  obtain ⟨k, -, rfl⟩ := mem_family.mp mem
  refine ⟨joined k, fun x here => ?_⟩
  cases x with
  | gate => exact absurd here disarmed
  | _ =>
    simp [Sizes.discipline, Sizes.restsOn, notMem_flusherParts, notMem_queueParts,
      Sizes.indexParts, mem_family]

/-- Nothing rests on a flag. -/
theorem flag_leaf {r : Resource} (flag : r = .gate ∨ ∃ q, r = .shutdown q) (x : Resource) :
    r ∉ sizes.discipline.restsOn x := by
  rcases flag with rfl | ⟨q, rfl⟩ <;> cases x <;>
    simp [Sizes.discipline, Sizes.restsOn, notMem_flusherParts, notMem_queueParts,
      Sizes.indexParts, Sizes.allThreads, mem_family]

/-- A stage is told to end while everything its queue consists of is still there. -/
theorem shutdown_frees {α : Type} {own : Finset Resource} {p : Prog Resource α} {a : α}
    (next : sizes.discipline.Frees context (insert (.shutdown q) own) p a)
    (running : .shutdown q ∉ own) (parts : Sizes.queueParts q ⊆ own) :
    sizes.discipline.Frees context own (do
      sizes.discipline.establish (.shutdown q)
      p) a := by
  have anchor : .queue q ∈ own := parts (by simp [Sizes.queueParts])
  exact Frees.establish next running (parts.trans Finset.subset_union_left)
    ⟨_, anchor, by simp [Sizes.discipline, Sizes.restsOn, Sizes.queueParts]⟩
    (flag_leaf (.inr ⟨q, rfl⟩))

theorem queueParts_subset (q : QueueId) : Sizes.queueParts q ⊆ Sizes.flusherParts := by
  intro r mem
  cases q <;> simp [Sizes.flusherParts, mem]

theorem failThreads_frees (s1 s2 : Nat) :
    sizes.discipline.Frees context
      (family (.thread .q2) 0 s2 ∪ (family (.thread .q1) 0 s1 ∪ Sizes.flusherParts))
      (failThreads sizes.discipline s1 s2) false := by
  have queues : sizes.discipline.Frees context
      (Sizes.shutParts .q1 ∪ (Sizes.shutParts .q2 ∪ Sizes.flusherFields))
      (failQ sizes.discipline true true) false :=
    queues_free noxQueueDestroy_frees_shut noxQueueDestroy_frees_shut wbDone_frees
      (Finset.Subset.refl _) (Finset.Subset.refl _)
  have joins : sizes.discipline.Frees context
      (family (.thread .q1) 0 s1 ∪ (family (.thread .q2) 0 s2 ∪
        (Sizes.shutParts .q1 ∪ (Sizes.shutParts .q2 ∪ Sizes.flusherFields)))) (do
      sizes.discipline.releaseFrom (.thread .q1) 0 s1
      sizes.discipline.releaseFrom (.thread .q2) 0 s2
      failQ sizes.discipline true true) false := by
    refine threads_free s1 (threads_free s2 queues ?_ ?_ ?_) ?_ ?_ ?_ <;>
      simp [Sizes.shutParts, notMem_queueParts, notMem_flusherFields, mem_family]
  refine shutdown_frees (shutdown_frees ?_ ?_ ?_) ?_ ?_
  · convert joins using 1
    ext r
    simp only [Sizes.shutParts, Sizes.flusherParts, Finset.mem_union, Finset.mem_insert]
    tauto
  · simp [notMem_flusherParts, mem_family]
  · exact (queueParts_subset .q2).trans (by intro r mem; simp [mem])
  · simp [notMem_flusherParts, mem_family]
  · exact (queueParts_subset .q1).trans (by intro r mem; simp [mem])

theorem startThreads_completes :
    sizes.discipline.Completes (sizes.indexParts ∪ {.fd, .engine})
      (sizes.allThreads ∪ Sizes.flusherParts) Sizes.flusherParts
      (startThreads sizes.discipline sizes) := by
  have rests : ∀ q i, sizes.discipline.restsOn (.thread q i) ⊆
      Sizes.flusherParts ∪ (sizes.indexParts ∪ {.fd, .engine}) := by
    intro q i
    refine Finset.union_subset_union_right (Finset.union_subset_union_right ?_)
    simp
  have fresh : ∀ q i, .thread q i ∉ Sizes.flusherParts := fun _ _ => notMem_flusherParts rfl
  have all : family (.thread .q2) 0 (sizes.threads .q2) ∪
      (family (.thread .q1) 0 (sizes.threads .q1) ∪ Sizes.flusherParts) =
        sizes.allThreads ∪ Sizes.flusherParts := (Finset.union_assoc _ _ _).symm
  have second : sizes.discipline.Completes (sizes.indexParts ∪ {.fd, .engine})
      (sizes.allThreads ∪ Sizes.flusherParts)
      (family (.thread .q1) 0 (sizes.threads .q1) ∪ Sizes.flusherParts) (do
        let s2 ← sizes.discipline.acquireFrom (.thread .q2) 0 (sizes.threads .q2)
        if s2 < sizes.threads .q2 then
          failThreads sizes.discipline (sizes.threads .q1) s2
        else
          return true) := by
    refine Completes.loop (fun _ _ same => (Resource.thread.inj same).2) ?_ ?_
      (fun k _ => failThreads_frees (sizes.threads .q1) k) ?_ all.subset
    · intro k
      exact (rests .q2 k).trans (Finset.union_subset_union_left Finset.subset_union_right)
    · intro k
      simp [mem_family, fresh]
    · rw [all]
      exact Completes.pure
  refine Completes.loop (fun _ _ same => (Resource.thread.inj same).2) (rests .q1) (fresh .q1)
    (fun k _ => ?_) second (Finset.subset_union_right.trans all.subset)
  have undone : sizes.discipline.Frees (sizes.indexParts ∪ {.fd, .engine}) _ _ _ :=
    failThreads_frees k 0
  rwa [show family (.thread .q2) 0 0 = (∅ : Finset Resource) from rfl, Finset.empty_union] at undone

theorem otflushStart_completes :
    sizes.discipline.Completes (sizes.indexParts ∪ {.fd, .engine})
      (sizes.allThreads ∪ Sizes.flusherParts) ∅ (otflushStart sizes.discipline sizes) := by
  have queues : sizes.discipline.Completes (sizes.indexParts ∪ {.fd, .engine})
      (sizes.allThreads ∪ Sizes.flusherParts) Sizes.flusherFields (do
        let made1 ← noxQueueCreate sizes.discipline .q1
        let made2 ← noxQueueCreate sizes.discipline .q2
        if !made1 || !made2 then
          failQ sizes.discipline made1 made2
        else
          startThreads sizes.discipline sizes) := by
    refine Completes.both noxQueueCreate_completes noxQueueCreate_completes
      (fun made1 made2 _ => failQ_frees made1 made2) startThreads_completes ?_ ?_ ?_
      Finset.subset_union_right
    · simp [Sizes.flusherFields]
    · refine (queue_apart ?_ ?_ ?_).mono (Finset.subset_insert _ _) <;>
        simp [Sizes.shutParts, Sizes.queueParts, Sizes.flusherFields]
    · refine (queue_apart ?_ ?_ ?_).mono (Finset.subset_insert _ _) <;>
        simp [Sizes.shutParts, Sizes.queueParts, Sizes.flusherFields]
  refine Completes.first (Completes.acquire (Frees.last ?_ ?_) (Completes.acquire failMtx_frees
    (Completes.acquire failIdle_frees (Completes.acquire failNotBusy_frees queues
      ?_ ?_ ?_ ?_) ?_ ?_ ?_ ?_) ?_ ?_ ?_ ?_) ?_ ?_ ?_ ?_) ?_ ?_
  all_goals simp [Sizes.discipline, Sizes.restsOn, Sizes.toRelease, Sizes.flusherParts,
      Sizes.flusherFields, Finset.insert_subset_iff]

theorem otflushDestroy_frees :
    sizes.discipline.Frees context
      (Sizes.shutParts .q1 ∪ (Sizes.shutParts .q2 ∪ Sizes.flusherFields))
      (otflushDestroy sizes.discipline) () := by
  refine queues_free noxQueueDestroy_frees_shut noxQueueDestroy_frees_shut ?_
    (Finset.Subset.refl _) (Finset.Subset.refl _)
  refine Frees.release (Frees.release (Frees.release (Frees.release (Frees.one ?_ ?_)
    ?_ ?_ ?_ ?_) ?_ ?_ ?_ ?_) ?_ ?_ ?_ ?_) ?_ ?_ ?_ ?_ <;>
    simp [Sizes.discipline, Sizes.restsOn, Sizes.toRelease]

theorem otflushStop_frees :
    sizes.discipline.Frees context (sizes.allThreads ∪ Sizes.flusherParts)
      (otflushStop sizes.discipline sizes) () := by
  -- Q2 is shut down while the threads that take from it still run.
  have second : sizes.discipline.Frees context (family (.thread .q2) 0 (sizes.threads .q2) ∪
      (Sizes.shutParts .q1 ∪ (Sizes.queueParts .q2 ∪ Sizes.flusherFields))) (do
        sizes.discipline.establish (.shutdown .q2)
        sizes.discipline.releaseFrom (.thread .q2) 0 (sizes.threads .q2)
        otflushDestroy sizes.discipline) () := by
    have joins : sizes.discipline.Frees context (family (.thread .q2) 0 (sizes.threads .q2) ∪
        (Sizes.shutParts .q1 ∪ (Sizes.shutParts .q2 ∪ Sizes.flusherFields))) (do
          sizes.discipline.releaseFrom (.thread .q2) 0 (sizes.threads .q2)
          otflushDestroy sizes.discipline) () := by
      refine threads_free _ otflushDestroy_frees ?_ ?_ ?_ <;>
        simp [Sizes.shutParts, notMem_queueParts, notMem_flusherFields]
    refine shutdown_frees ?_ ?_ ?_
    · convert joins using 1
      ext r
      simp only [Sizes.shutParts, Finset.mem_union, Finset.mem_insert]
      tauto
    · simp [Sizes.shutParts, notMem_queueParts, notMem_flusherFields, mem_family]
    · intro r mem
      simp [mem]
  have joins : sizes.discipline.Frees context (family (.thread .q1) 0 (sizes.threads .q1) ∪
      (family (.thread .q2) 0 (sizes.threads .q2) ∪
        (Sizes.shutParts .q1 ∪ (Sizes.queueParts .q2 ∪ Sizes.flusherFields)))) (do
        sizes.discipline.releaseFrom (.thread .q1) 0 (sizes.threads .q1)
        sizes.discipline.establish (.shutdown .q2)
        sizes.discipline.releaseFrom (.thread .q2) 0 (sizes.threads .q2)
        otflushDestroy sizes.discipline) () := by
    refine threads_free _ second ?_ ?_ ?_ <;>
      simp [Sizes.shutParts, notMem_queueParts, notMem_flusherFields, mem_family]
  refine shutdown_frees ?_ ?_ ?_
  · convert joins using 1
    ext r
    simp only [Sizes.allThreads, Sizes.shutParts, Sizes.flusherParts, Finset.mem_union,
      Finset.mem_insert]
    tauto
  · simp [Sizes.allThreads, notMem_flusherParts, mem_family]
  · exact (queueParts_subset .q1).trans Finset.subset_union_right

/-- Everything that an open engine has. -/
def Sizes.engineParts (sizes : Sizes) : Finset Resource :=
  insert .gate ((sizes.allThreads ∪ flusherParts) ∪ (sizes.indexParts ∪ {.fd, .engine}))

theorem flusher_apart :
    sizes.discipline.Apart (sizes.allThreads ∪ Sizes.flusherParts)
      (sizes.indexParts ∪ {.fd, .engine}) := by
  have below : ∀ x ∈ sizes.indexParts ∪ {.fd, .engine},
      sizes.discipline.restsOn x ⊆ sizes.indexParts ∪ {.fd, .engine} := by
    intro x here
    simp only [Sizes.indexParts, Finset.mem_union, mem_family, Finset.mem_insert,
      Finset.mem_singleton] at here
    rcases here with (⟨k, -, rfl⟩ | rfl) | rfl | rfl <;>
      simp [Sizes.discipline, Sizes.restsOn, Sizes.indexParts]
  have other : Disjoint (sizes.allThreads ∪ Sizes.flusherParts)
      (sizes.indexParts ∪ {.fd, .engine}) := by
    refine Finset.disjoint_right.mpr fun x here => ?_
    simp only [Sizes.indexParts, Finset.mem_union, mem_family, Finset.mem_insert,
      Finset.mem_singleton] at here
    rcases here with (⟨k, -, rfl⟩ | rfl) | rfl | rfl <;>
      simp [Sizes.allThreads, Sizes.flusherParts, Sizes.flusherFields, Sizes.queueParts, mem_family]
  intro r mem
  have away := Finset.disjoint_left.mp other mem
  exact ⟨away, fun x here rests => away (below x here rests)⟩

/-- The index, the descriptor and, as the last thing, whatever frees the engine. -/
theorem files_free {α : Type} {p : Prog Resource α} {a : α}
    (next : sizes.discipline.Frees context {.engine} p a) :
    sizes.discipline.Frees context (sizes.indexParts ∪ {.fd, .engine}) (do
      pageIndexDestroy sizes.discipline sizes
      sizes.discipline.release .fd
      p) a := by
  refine pageIndexDestroy_frees.call (Frees.release next ?_ ?_ ?_ ?_)
    (Finset.empty_subset _) ?_ <;>
    simp [Discipline.Apart, mem_family, Sizes.indexParts, Sizes.discipline, Sizes.restsOn,
      Sizes.toRelease]

theorem noxOpen_completes :
    sizes.discipline.Completes ∅ sizes.engineParts ∅ (noxOpen sizes.discipline sizes) := by
  have armed : sizes.discipline.Completes ∅ sizes.engineParts
      ((sizes.allThreads ∪ Sizes.flusherParts) ∪ (sizes.indexParts ∪ {.fd, .engine})) (do
        sizes.discipline.establish .gate
        return true) := by
    refine Completes.establish Completes.pure ?_ (Finset.mem_insert_self _ _) ?_
    · simp [Sizes.allThreads, Sizes.flusherParts, Sizes.queueParts, Sizes.flusherFields,
        Sizes.indexParts, mem_family]
    · intro r mem
      simp [show r ∈ sizes.allThreads from mem]
  have engineLast : sizes.discipline.Frees ∅ {.engine} (do
      sizes.discipline.release .engine
      return false) false := by
    refine Frees.last ?_ ?_ <;>
      simp [Sizes.discipline, Sizes.restsOn, Sizes.toRelease]
  have started : sizes.discipline.Completes ∅ sizes.engineParts
      (sizes.indexParts ∪ {.fd, .engine}) (do
        if !(← otflushStart sizes.discipline sizes) then
          pageIndexDestroy sizes.discipline sizes
          sizes.discipline.release .fd
          sizes.discipline.release .engine
          return false
        sizes.discipline.establish .gate
        return true) :=
    otflushStart_completes.call (files_free engineLast) armed Finset.subset_union_left
      flusher_apart (Finset.subset_insert _ _)
  refine Completes.first (Completes.acquire engineLast (pageIndexCreate_completes.call
    (Frees.release engineLast ?_ ?_ ?_ ?_) started ?_ ?_ ?_) ?_ ?_ ?_ ?_) ?_ ?_
  case refine_7 =>
    exact Finset.subset_union_right.trans (Finset.subset_insert _ _)
  all_goals simp [Discipline.Apart, mem_family, Sizes.engineParts, Sizes.indexParts,
    Sizes.discipline, Sizes.restsOn, Sizes.toRelease, Finset.insert_subset_iff]

theorem noxClose_frees :
    sizes.discipline.Frees ∅ sizes.engineParts (noxClose sizes.discipline sizes) () := by
  have engine : sizes.discipline.Frees ∅ {.engine} (sizes.discipline.release .engine) () := by
    refine Frees.one ?_ ?_ <;>
      simp [Sizes.discipline, Sizes.restsOn, Sizes.toRelease]
  have stopped := otflushStop_frees.call (files_free engine) (Finset.empty_subset _) flusher_apart
  refine Frees.release stopped (flag_leaf (.inl rfl) _) (Finset.empty_subset _) ?_
    fun x _ => flag_leaf (.inl rfl) x
  simp [Sizes.allThreads, notMem_flusherParts, Sizes.indexParts, mem_family]

/-! ## When they succeed -/

/-- A call whose failure sends the code to `undo`. -/
theorem asks_call {n m : Nat} {p undo rest : Prog Resource Bool} (first : Asks n p (· = true))
    (next : Asks m rest (· = true)) (undone : ∀ w, (undo w).1 = false) :
    Asks (n + m) (p >>= fun ok => if (!ok) = true then undo else rest) (· = true) := by
  refine first.bind (fun ok yes => ?_) fun ok no w => ?_
  · simpa [yes] using next
  · simp [no, undone]

theorem asks_loop {n m : Nat} {f : Nat → Resource} {undo : Nat → Prog Resource Bool}
    {rest : Prog Resource Bool} {d : Discipline Resource} (next : Asks m rest (· = true))
    (undone : ∀ k w, (undo k w).1 = false) :
    Asks (n + m) (d.acquireFrom f 0 n >>= fun k => if k < n then undo k else rest)
      (· = true) := by
  refine (Asks.acquireFrom 0 n).bind (fun k all => ?_) fun k short w => ?_
  · simpa [Nat.not_lt.mpr all] using next
  · simp [Nat.not_le.mp short, undone]

theorem noxQueueCreate_asks : Asks 3 (noxQueueCreate sizes.discipline q) (· = true) :=
  asks_call Asks.acquire (asks_call Asks.acquire (asks_call Asks.acquire (Asks.pure rfl)
    fun _ => rfl) fun _ => rfl) fun _ => rfl

theorem pageIndexCreate_asks :
    Asks (1 + sizes.shards) (pageIndexCreate sizes.discipline sizes) (· = true) :=
  asks_call Asks.acquire (asks_loop (Asks.pure rfl) fun _ _ => rfl) fun _ => rfl

theorem startThreads_asks :
    Asks (sizes.threads .q1 + sizes.threads .q2) (startThreads sizes.discipline sizes)
      (· = true) :=
  asks_loop (asks_loop (Asks.pure rfl) fun _ _ => rfl) fun _ _ => rfl

/-- Both queues are made, and the threads started, only if neither queue was refused. -/
theorem queues_ask :
    Asks (3 + (3 + (sizes.threads .q1 + sizes.threads .q2))) (do
      let made1 ← noxQueueCreate sizes.discipline .q1
      let made2 ← noxQueueCreate sizes.discipline .q2
      if !made1 || !made2 then
        failQ sizes.discipline made1 made2
      else
        startThreads sizes.discipline sizes) (· = true) := by
  refine noxQueueCreate_asks.bind (fun made1 yes => ?_) fun made1 no w => ?_
  · refine noxQueueCreate_asks.bind (fun made2 yes2 => ?_) fun made2 no2 w => ?_
    · simpa [yes, yes2] using startThreads_asks
    · have missing : (!made1 || !made2) = true := by simp [no2]
      rw [if_pos missing]
      exact Bool.false_ne_true
  · show ¬ ((if (!made1 || !(noxQueueCreate sizes.discipline .q2 w).1) = true then
      failQ sizes.discipline made1 _ else startThreads sizes.discipline sizes) _).1 = true
    have missing : (!made1 || !(noxQueueCreate sizes.discipline .q2 w).1) = true := by simp [no]
    rw [if_pos missing]
    exact Bool.false_ne_true

/-- The number of calls in `otflush_start` that can be refused. -/
def Sizes.flusherCalls (sizes : Sizes) : Nat :=
  11 + (sizes.threads .q1 + sizes.threads .q2)

theorem otflushStart_asks :
    Asks sizes.flusherCalls (otflushStart sizes.discipline sizes) (· = true) := by
  have whole : Asks _ (otflushStart sizes.discipline sizes) (· = true) :=
    asks_call Asks.acquire (asks_call Asks.acquire (asks_call Asks.acquire (asks_call Asks.acquire
      (asks_call Asks.acquire queues_ask fun _ => rfl) fun _ => rfl) fun _ => rfl) fun _ => rfl)
      fun _ => rfl
  convert whole using 1
  rw [Sizes.flusherCalls]
  omega

/-- The number of calls in `nox_open` that can be refused. -/
def Sizes.calls (sizes : Sizes) : Nat := 3 + sizes.shards + sizes.flusherCalls

theorem noxOpen_asks : Asks sizes.calls (noxOpen sizes.discipline sizes) (· = true) := by
  have armed : Asks (0 + 0) (do
      sizes.discipline.establish .gate
      return true) (· = true) :=
    Asks.establish.bind (fun _ _ => Asks.pure rfl) fun _ impossible => absurd trivial impossible
  have whole : Asks _ (noxOpen sizes.discipline sizes) (· = true) :=
    asks_call Asks.acquire (asks_call Asks.acquire (asks_call pageIndexCreate_asks
      (asks_call otflushStart_asks armed fun _ => rfl) fun _ => rfl) fun _ => rfl) fun _ => rfl
  convert whole using 1
  rw [Sizes.calls]
  omega

/-- `nox_open` succeeds exactly if none of its calls is refused.  Whichever are refused, no rule
is broken and a failed `nox_open` leaves nothing behind; after a successful one the engine has
all its parts, and `nox_close` gives every one of them back, again without breaking a rule. -/
theorem open_close_balanced (sizes : Sizes) (answers : Nat → Bool) :
    let opened := noxOpen sizes.discipline sizes { held := ∅, answers, misused := false }
    let closed := noxClose sizes.discipline sizes opened.2
    (opened.1 = true ↔ ∀ i < sizes.calls, answers i = true) ∧
      opened.2.misused = false ∧
      (opened.1 = false → opened.2.held = ∅) ∧
      (opened.1 = true → opened.2.held = sizes.engineParts ∧
        closed.2.misused = false ∧ closed.2.held = ∅) := by
  intro opened closed
  have none : sizes.discipline.Apart sizes.engineParts ∅ := by
    intro r _
    simp
  obtain ⟨clean, held⟩ := noxOpen_completes ∅ (Finset.Subset.refl _) none
    { held := ∅, answers, misused := false } rfl rfl
  refine ⟨⟨fun succeeded => ?_, fun all => (noxOpen_asks.granted _ all).1⟩, clean,
    fun failed => ?_, fun succeeded => ?_⟩
  · intro i low
    by_contra refusal
    exact noxOpen_asks.refused _ ⟨i, low, by simpa using refusal⟩ succeeded
  · simpa [opened, failed] using held
  · have full : opened.2.held = sizes.engineParts := by
      simpa [opened, succeeded] using held
    obtain ⟨stillClean, -, empty⟩ := noxClose_frees ∅ (Finset.Subset.refl _) none opened.2
      (by simpa using full) clean
    exact ⟨full, stillClean, empty⟩

end NoxDB

import NoxDB.Engine.Backpressure

/-! # The order of service

What a run of the engine passes to `nox_queue_push` and gets from `nox_queue_pop` is written down
in its order, step by step, with the pages each stage is done with.  Both queues are served in
the order of the pushes: what was popped and what is still there are the pushes, and what a stage
is done with and what is in its hands are its pops.  The branches that push a page back are never
taken.
-/

namespace NoxDB

open Library.Runs

variable {n : Nat}

def Enqueue.pushes1 (p : PageId) : Enqueue → List PageId
  | .partialPush => [p]
  | _ => []

def Enqueue.pushes2 (p : PageId) : Enqueue → List PageId
  | .fullPush => [p]
  | _ => []

namespace Engine

/-- What a step passes to `nox_queue_push` for Queue-1. -/
def pushes1 (s : Engine n) : Label n → List PageId
  | .fg t =>
    match s.fg t with
    | .scrap _ _ (.enqueue p e _) => e.pushes1 p
    | _ => []
  | .stage1 =>
    match s.s1 with
    | .busyPush p => [p]
    | _ => []
  | .closer =>
    match s.closer with
    | .sweepEnqueue _ _ p e => e.pushes1 p
    | _ => []
  | _ => []

/-- What a step passes to `nox_queue_push` for Queue-2. -/
def pushes2 (s : Engine n) : Label n → List PageId
  | .fg t =>
    match s.fg t with
    | .scrap _ _ (.enqueue p e _) => e.pushes2 p
    | _ => []
  | .stage1 =>
    match s.s1 with
    | .forwardPush p | .fillPush p => [p]
    | _ => []
  | .stage2 =>
    match s.s2 with
    | .busyPush p | .pushBack _ p => [p]
    | _ => []
  | .closer =>
    match s.closer with
    | .sweepEnqueue _ _ p e => e.pushes2 p
    | _ => []
  | _ => []

/-- What a step gets from `nox_queue_pop` on Queue-1. -/
def pops1 (s : Engine n) : Label n → List PageId
  | .stage1 =>
    match s.s1 with
    | .idle => s.q1.head?.toList
    | _ => []
  | _ => []

/-- What a step gets from `nox_queue_pop` or `nox_queue_pop_if_base` on Queue-2. -/
def pops2 (s : Engine n) : Label n → List PageId
  | .stage2 =>
    match s.s2 with
    | .idle => s.q2.head?.toList
    | .collect batch =>
      match s.q2 with
      | next :: _ =>
        if batch.length < pwritevMaxIov ∧ (s.pages next).base = s.wantedBase batch then [next]
        else []
      | [] => []
    | _ => []
  | _ => []

/-- The page that Stage-1 passes on or drops in a step. -/
def finishes1 (s : Engine n) : Label n → List PageId
  | .stage1 =>
    match s.s1 with
    | .forwardPush p | .fillPush p | .finish p false => [p]
    | _ => []
  | _ => []

/-- The page that Stage-2 frees in a step. -/
def finishes2 (s : Engine n) : Label n → List PageId
  | .stage2 =>
    match s.s2 with
    | .freeing (p :: _) => [p]
    | _ => []
  | _ => []

/-- The page that a stage pushes back to the queue it came from. -/
def returns (s : Engine n) : Label n → List PageId
  | .stage1 =>
    match s.s1 with
    | .busyPush p => [p]
    | _ => []
  | .stage2 =>
    match s.s2 with
    | .busyPush p | .pushBack _ p => [p]
    | _ => []
  | _ => []

end Engine

/-- A step takes from the front of a queue what it pops and adds what it pushes at the end; a stage
gets what is popped and gives up what it is done with; nothing is pushed back. -/
structure Serves (s : Engine n) (label : Label n) (s' : Engine n) : Prop where
  queue1 : s.pops1 label ++ s'.q1 = s.q1 ++ s.pushes1 label
  hand1 : s.finishes1 label ++ s'.s1.pages = s.s1.pages ++ s.pops1 label
  queue2 : s.pops2 label ++ s'.q2 = s.q2 ++ s.pushes2 label
  hand2 : s.finishes2 label ++ s'.s2.pages = s.s2.pages ++ s.pops2 label
  kept : s.returns label = []

variable {cfg : Config} {file : File} {scratch : Nat → UInt8} {s s' : Engine n} {label : Label n}

/-- A thread other than the stages only pushes. -/
theorem Serves.pushing (idle : s.pops1 label = [] ∧ s.finishes1 label = [] ∧
      s.pops2 label = [] ∧ s.finishes2 label = [] ∧ s.returns label = [])
    (hands : s'.s1 = s.s1 ∧ s'.s2 = s.s2)
    (queue1 : s'.q1 = s.q1 ++ s.pushes1 label) (queue2 : s'.q2 = s.q2 ++ s.pushes2 label) :
    Serves s label s' := by
  obtain ⟨pops1, finishes1, pops2, finishes2, kept⟩ := idle
  refine ⟨?_, ?_, ?_, ?_, kept⟩
  · rw [pops1, queue1]
    rfl
  · rw [finishes1, pops1, hands.1, List.append_nil]
    rfl
  · rw [pops2, queue2]
    rfl
  · rw [finishes2, pops2, hands.2, List.append_nil]
    rfl

theorem serves_fg (move : FgMove cfg s label s') : Serves s label s' := by
  cases move with
  | callZero | callDirect | callScrap | alloc | oomPage | oomDirect | pwrite =>
    exact .pushing ⟨rfl, rfl, rfl, rfl, rfl⟩ ⟨rfl, rfl⟩ (by simp [Engine.pushes1])
      (by simp [Engine.pushes2])
  | gatePass position | gatePark position | parkedPass position | lookupFound position
  | lockPage position | decide position | partialInc position | partialPush position
  | fullInc position | fullEnter position | fullPush position | unlockMore position
  | unlockDone position | unlockRetry position | detach position =>
    exact .pushing ⟨rfl, rfl, rfl, rfl, rfl⟩ ⟨rfl, rfl⟩
      (by simp [Engine.pushes1, position, Enqueue.pushes1])
      (by simp [Engine.pushes2, position, Enqueue.pushes2])

theorem serves_closer (move : CloserMove s label s') : Serves s label s' := by
  cases move with
  | close | closeFd =>
    exact .pushing ⟨rfl, rfl, rfl, rfl, rfl⟩ ⟨rfl, rfl⟩ (by simp [Engine.pushes1])
      (by simp [Engine.pushes2])
  | disarm position | firstDrain position | sweepBucket position | sweepDone position
  | sweepFault position | sweepLock position | partialInc position | partialPush position
  | fullInc position | fullEnter position | fullPush position | sweepUnlock position
  | sweepNextFault position | sweepNext position | secondDrain position | stopping position
  | shutdown1 position | join1 position | shutdown2 position | join2 position
  | lastCheck position | destroy position =>
    exact .pushing ⟨rfl, rfl, rfl, rfl, rfl⟩ ⟨rfl, rfl⟩
      (by simp [Engine.pushes1, position, Enqueue.pushes1])
      (by simp [Engine.pushes2, position, Enqueue.pushes2])

theorem serves_stage1 (load : Load s) (move : Stage1Move cfg s label s') : Serves s label s' := by
  have calm := load.calm1
  cases move with
  -- The device is never busy, so no page is pushed back.
  | busyPush position => simp [position, Stage1.deferred] at calm
  | preadOk position | preadFail position =>
    exact ⟨by simp [Engine.pops1, Engine.pushes1],
      by simp [Engine.finishes1, Engine.pops1, position, Stage1.pages],
      by simp [Engine.pops2, Engine.pushes2], by simp [Engine.finishes2, Engine.pops2], rfl⟩
  | pop position queue | exit position queue =>
    exact ⟨by simp [Engine.pops1, Engine.pushes1, position, queue],
      by simp [Engine.finishes1, Engine.pops1, position, queue, Stage1.pages],
      by simp [Engine.pops2, Engine.pushes2, position], by simp [Engine.finishes2, Engine.pops2],
      by simp [Engine.returns, position]⟩
  | inspectFull position | inspectBusy position | inspectHoles position | forwardEnter position
  | forwardPush position | wake position | guardPass position | readStart position
  | readEnd position | readFailed position | fill position | drop position | dropDec position
  | fillEnter position | fillPush position =>
    exact ⟨by simp [Engine.pops1, Engine.pushes1, position],
      by simp [Engine.finishes1, Engine.pops1, position, Stage1.pages],
      by simp [Engine.pops2, Engine.pushes2, position], by simp [Engine.finishes2, Engine.pops2],
      by simp [Engine.returns, position]⟩

theorem serves_stage2 (load : Load s) (ready : Ready cfg s) (move : Stage2Move s label s') :
    Serves s label s' := by
  have calm := load.calm2
  have settled := ready.settled
  cases move with
  | busyPush position => simp [position, Stage2.deferred] at calm
  -- A page in Queue-2 is ready, so none is found there that has to go back.
  | pushBack position => simp [position, Stage2.returning] at settled
  | pwritev position fits after =>
    refine ⟨by simp [Engine.pops1, Engine.pushes1], by simp [Engine.finishes1, Engine.pops1],
      by simp [Engine.pops2, Engine.pushes2], ?_, rfl⟩
    cases after <;>
      simp [Engine.finishes2, Engine.pops2, position, afterPwritev, Stage2.pages, Stage2.tagged,
        Stage2.unlinked, Stage2.kept]
  | @collectStop batch position stop =>
    have nothing : s.pops2 .stage2 = [] := by
      cases queue : s.q2 with
      | nil => simp [Engine.pops2, position, queue]
      | cons next rest =>
        have differs : ¬ (batch.length < pwritevMaxIov ∧
            (s.pages next).base = s.wantedBase batch) := fun both =>
          stop both.1 next rest queue both.2
        simp only [Engine.pops2, position, queue, if_neg differs]
    exact ⟨by simp [Engine.pops1, Engine.pushes1], by simp [Engine.finishes1, Engine.pops1],
      by simp [nothing, Engine.pushes2, position],
      by simp [nothing, Engine.finishes2, position, Stage2.pages, Stage2.tagged, Stage2.unlinked,
        Stage2.kept],
      by simp [Engine.returns, position]⟩
  | pop position queue | exit position queue =>
    exact ⟨by simp [Engine.pops1, Engine.pushes1], by simp [Engine.finishes1, Engine.pops1],
      by simp [Engine.pops2, Engine.pushes2, position, queue],
      by simp [Engine.finishes2, Engine.pops2, position, queue, Stage2.pages, Stage2.tagged,
        Stage2.unlinked, Stage2.kept],
      by simp [Engine.returns, position]⟩
  | collectTake position room queue wanted =>
    exact ⟨by simp [Engine.pops1, Engine.pushes1], by simp [Engine.finishes1, Engine.pops1],
      by simp [Engine.pops2, Engine.pushes2, position, room, queue, wanted],
      by simp [Engine.finishes2, Engine.pops2, position, room, queue, wanted, Stage2.pages,
        Stage2.tagged, Stage2.unlinked, Stage2.kept],
      by simp [Engine.returns, position]⟩
  | poppedBusy position | poppedGo position | wake position | checkReady position
  | checkNotReady position | detachDone position | unlinkSkip position | unlink position
  | tag position | writeStart position | written position | latch position | freeDone position
  | free position | leave position | decrement position =>
    exact ⟨by simp [Engine.pops1, Engine.pushes1], by simp [Engine.finishes1, Engine.pops1],
      by simp [Engine.pops2, Engine.pushes2, position],
      by simp [Engine.finishes2, Engine.pops2, position, Stage2.pages, Stage2.tagged,
        Stage2.unlinked, Stage2.kept],
      by simp [Engine.returns, position]⟩

theorem Sound.serves (sound : Sound cfg s) (move : Move cfg s label s') : Serves s label s' := by
  cases move with
  | fg move => exact serves_fg move
  | stage1 move => exact serves_stage1 sound.load move
  | stage2 move => exact serves_stage2 sound.load sound.ready move
  | closer move => exact serves_closer move

/-- The calls of a run on its queues and what became of the pages, oldest first. -/
structure Service where
  pushed1 : List PageId
  popped1 : List PageId
  finished1 : List PageId
  pushed2 : List PageId
  popped2 : List PageId
  finished2 : List PageId
  returned : List PageId
deriving DecidableEq, Repr

namespace Service

def init : Service where
  pushed1 := []
  popped1 := []
  finished1 := []
  pushed2 := []
  popped2 := []
  finished2 := []
  returned := []

/-- The record of a step. -/
def note (s : Engine n) (label : Label n) (service : Service) : Service where
  pushed1 := service.pushed1 ++ s.pushes1 label
  popped1 := service.popped1 ++ s.pops1 label
  finished1 := service.finished1 ++ s.finishes1 label
  pushed2 := service.pushed2 ++ s.pushes2 label
  popped2 := service.popped2 ++ s.pops2 label
  finished2 := service.finished2 ++ s.finishes2 label
  returned := service.returned ++ s.returns label

end Service

/-- The record accounts for the queues and the hands of the stages. -/
structure InTurn (s : Engine n) (service : Service) : Prop where
  queue1 : service.popped1 ++ s.q1 = service.pushed1
  hand1 : service.finished1 ++ s.s1.pages = service.popped1
  queue2 : service.popped2 ++ s.q2 = service.pushed2
  hand2 : service.finished2 ++ s.s2.pages = service.popped2
  kept : service.returned = []

/-- What went out and what is there are what came in: one more step. -/
theorem in_turn_append {out there came leaves next enters : List PageId}
    (before : out ++ there = came) (step : leaves ++ next = there ++ enters) :
    out ++ leaves ++ next = came ++ enters := by
  calc out ++ leaves ++ next
    _ = out ++ (there ++ enters) := by rw [List.append_assoc, step]
    _ = came ++ enters := by rw [← List.append_assoc, before]

theorem InTurn.step {service : Service} (turn : InTurn s service) (serves : Serves s label s') :
    InTurn s' (service.note s label) where
  queue1 := in_turn_append turn.queue1 serves.queue1
  hand1 := in_turn_append turn.hand1 serves.hand1
  queue2 := in_turn_append turn.queue2 serves.queue2
  hand2 := in_turn_append turn.hand2 serves.hand2
  kept := by
    calc service.returned ++ s.returns label
      _ = [] := by rw [turn.kept, serves.kept]; rfl

/-- Along every run of the engine, what was popped from a queue and what is in it are what the
engine has pushed to it, in the order of the pushes; what a stage has passed on, dropped or freed
and what is in its hands are what it has popped, in that order; and no page was ever pushed back. -/
theorem engine_served {service : Service}
    (run : Run (recording (Engine.step cfg) Service.note) (fun _ _ => True)
      (Engine.init n cfg file scratch, .init) (s, service)) :
    service.popped1 ++ s.q1 = service.pushed1 ∧
    service.finished1 ++ s.s1.pages = service.popped1 ∧
    service.popped2 ++ s.q2 = service.pushed2 ∧
    service.finished2 ++ s.s2.pages = service.popped2 ∧
    service.returned = [] := by
  obtain ⟨-, queue1, hand1, queue2, hand2, kept⟩ : Sound cfg s ∧ InTurn s service :=
    run.invariant (fun both => Sound cfg both.1 ∧ InTurn both.1 both.2)
      ⟨.init cfg file scratch, rfl, rfl, rfl, rfl, rfl⟩ fun known _ stepped => by
        obtain ⟨taken, record⟩ := recording_eq_some stepped
        have move := move_of_step taken
        rw [record]
        exact ⟨known.1.move move, known.2.step (known.1.serves move)⟩
  exact ⟨queue1, hand1, queue2, hand2, kept⟩

/-- A page each for two calls, filled one after the other; Stage-2 writes both with one `pwritev`
and frees the first. -/
def twoPages : List (Label 1) :=
  tinyWrite ++ tinyNext ++ tinyFill ++ tinyFill ++ List.replicate 11 .stage2 ++
    [.pwritev (.ok (2 * zoneSize))] ++ List.replicate 3 .stage2

/-- Both pages went through both queues in the order of the calls. -/
theorem engine_served_of_two :
    ∃ (s : Engine 1) (service : Service),
      Run (recording (Engine.step .standard) Service.note) (fun _ _ => True)
        (Engine.init 1 .standard emptyFile fun _ => 0, .init) (s, service) ∧
      service.pushed1 = [0, 1] ∧ service.finished1 = [0, 1] ∧ service.pushed2 = [0, 1] ∧
      service.finished2 = [0] ∧ service.finished2 ++ s.s2.pages = service.popped2 ∧
      service.popped2 ++ s.q2 = service.pushed2 ∧ service.returned = [] := by
  have both : ∃ both, Run (recording (Engine.step .standard) Service.note) (fun _ _ => True)
      (Engine.init 1 .standard emptyFile fun _ => 0, .init) both ∧
      both.2.pushed1 = [0, 1] ∧ both.2.finished1 = [0, 1] ∧ both.2.pushed2 = [0, 1] ∧
      both.2.finished2 = [0] :=
    Run.exists_of_follow _ (fun _ _ => true) twoPages (fun _ _ _ => trivial)
      (fun both : Engine 1 × Service => both.2.pushed1 = [0, 1] ∧ both.2.finished1 = [0, 1] ∧
        both.2.pushed2 = [0, 1] ∧ both.2.finished2 = [0]) (by decide +kernel)
  obtain ⟨⟨s, service⟩, run, pushed1, finished1, pushed2, finished2⟩ := both
  obtain ⟨-, -, queue2, hand2, kept⟩ := engine_served run
  exact ⟨s, service, run, pushed1, finished1, pushed2, finished2, hand2, queue2, kept⟩

end NoxDB

import NoxDB.Queue.Fifo

/-! # No wakeup is lost

A push signals once and wakes at most one consumer, and the page it pushed may be gone when that
consumer has the mutex.  While a consumer sleeps, the pages in the queue are not more than the
consumers that are on their way to it and the pushes that have still to signal (`Attended`).
-/

namespace NoxDB

open Function (update)
open Library.Links
open Library.Counting
open Library.Runs

variable {n : Nat} {base : Nat → Nat} {s s' : Queues n} {label : QueueLabel n}

namespace QueuePc

/-- A thread that will look at the queue again before it sleeps, or that will signal. -/
def attends (q : QueueId) : QueuePc → Nat
  | .lockPop r | .test r | .unlinkHead r .any | .setTail r _ | .incDepth r _ | .signal r _ =>
    if r = q then 1 else 0
  | _ => 0

theorem attends_of_entering {pc pc' : QueuePc} {q : QueueId}
    (position : pc.entering = some (q, pc')) (r : QueueId) : pc'.attends r = pc.attends r := by
  cases pc with
  | lockPush | lockPop | lockPopIf | lockShutdown | lockDepth =>
    cases position
    rfl
  | _ => cases position

theorem attends_of_leaving {pc : QueuePc} {q : QueueId} (position : pc.leaving = some q)
    (r : QueueId) : pc.attends r = 0 := by
  cases pc with
  | unlockPush | unlockPop | unlockShutdown | unlockDepth => rfl
  | _ => cases position

end QueuePc

def Attended (s : Queues n) (q : QueueId) : Prop :=
  (∃ t, s.pc t = .asleep q) → (s.queue q).content.length ≤ ∑ t, (s.pc t).attends q

/-- One thread moves on.  The queue may get empty, or longer by no more than there are attending. -/
theorem Attended.moved {q : QueueId} {t : Fin n} {pc : QueuePc} (attended : Attended s q)
    (pcs : s'.pc = update s.pc t pc) (awake : pc ≠ .asleep q)
    (balance : (∃ u, s.pc u = .asleep q) → (s'.queue q).content = [] ∨
      (s'.queue q).content.length + (s.pc t).attends q ≤
        (s.queue q).content.length + pc.attends q) : Attended s' q := by
  rintro ⟨u, sleeps⟩
  rw [pcs] at sleeps ⊢
  -- The thread that sleeps is not the one that moved, so it slept before.
  have other : u ≠ t := by
    rintro rfl
    exact awake (by simpa using sleeps)
  rw [Function.update_of_ne other] at sleeps
  have before := attended ⟨u, sleeps⟩
  have sums := weigh_update (QueuePc.attends q) s.pc t pc
  rcases balance ⟨u, sleeps⟩ with empty | less
  · simp [empty]
  · omega

/-- One thread moves on and still attends if it did. -/
theorem Attended.quiet {q : QueueId} {t : Fin n} {pc : QueuePc} (attended : Attended s q)
    (pcs : s'.pc = update s.pc t pc) (awake : pc ≠ .asleep q)
    (contents : ∀ r, (s'.queue r).content = (s.queue r).content)
    (attends : (s.pc t).attends q ≤ pc.attends q) : Attended s' q := by
  refine attended.moved pcs awake fun _ => .inr ?_
  rw [contents]
  exact Nat.add_le_add_left attends _

/-- A page more, and a push that has still to signal. -/
theorem Attended.linked {q r : QueueId} {t : Fin n} {p : Nat} {queue : NoxQueue n}
    (attended : Attended s q) (position : s.pc t = .link r p)
    (pcs : s'.pc = update s.pc t (.setTail r p)) (queues : s'.queue = update s.queue r queue)
    (content : queue.content = (s.queue r).content ++ [p]) : Attended s' q := by
  refine attended.moved pcs (by simp) fun _ => .inr ?_
  rw [queues, position]
  by_cases same : q = r
  · subst same
    simp [content, QueuePc.attends]
  · rw [Function.update_of_ne same]
    exact Nat.le_add_right _ _

/-- A signal makes the push stop attending and one of the sleepers attend. -/
theorem Attended.signalled {q r : QueueId} {t u : Fin n} {p : Nat} (attended : Attended s q)
    (position : s.pc t = .signal r p) (sleeps : s.pc u = .asleep r) :
    Attended { s with pc := update (update s.pc u (.lockPop r)) t (.unlockPush r p) } q := by
  have differs : t ≠ u := by
    rintro rfl
    rw [position] at sleeps
    cases sleeps
  rintro ⟨v, asleep⟩
  have waits : s.pc v = .asleep q := by
    have apart : v ≠ t := by
      rintro rfl
      simp at asleep
    have other : v ≠ u := by
      rintro rfl
      simp [apart] at asleep
    simpa [apart, other] using asleep
  have before := attended ⟨v, waits⟩
  have woken := weigh_update (QueuePc.attends q) s.pc u (.lockPop r)
  have signalled := weigh_update (QueuePc.attends q) (update s.pc u (.lockPop r)) t (.unlockPush r p)
  rw [Function.update_of_ne differs, position] at signalled
  rw [sleeps] at woken
  -- The push attended until its signal and the sleeper does from then on: the sum is the same.
  simp only [QueuePc.attends] at before woken signalled ⊢
  omega

theorem Attended.woken {q r : QueueId} {t : Fin n} (attended : Attended s q)
    (position : s.pc t = .broadcast r) :
    Attended
      { s with
        pc := update (fun u => if s.pc u = .asleep r then .lockPop r else s.pc u) t
          (.unlockShutdown r) } q := by
  -- All sleepers of `r` are awake, so a queue with a sleeper is the other one.
  rintro ⟨v, asleep⟩
  have apart : v ≠ t := by
    rintro rfl
    simp at asleep
  simp only [Function.update_of_ne apart] at asleep
  by_cases same : s.pc v = .asleep r
  · simp [same] at asleep
  · rw [if_neg same] at asleep
    have other : r ≠ q := by
      rintro rfl
      exact same asleep
    have before := attended ⟨v, asleep⟩
    have sums := weigh_update (QueuePc.attends q)
      (fun u => if s.pc u = .asleep r then .lockPop r else s.pc u) t (.unlockShutdown r)
    have others : ∑ u, QueuePc.attends q (if s.pc u = .asleep r then .lockPop r else s.pc u) =
        ∑ u, (s.pc u).attends q := by
      refine Finset.sum_congr rfl fun u _ => ?_
      by_cases sleeps : s.pc u = .asleep r
      · simp [sleeps, QueuePc.attends, other]
      · rw [if_neg sleeps]
    rw [others] at sums
    simp only [position, reduceCtorEq, if_false] at sums
    simp only [QueuePc.attends] at before sums ⊢
    omega

theorem attended_step (attended : ∀ q, Attended s q)
    (chain : ∀ q, Chain s.qnext (s.queue q).head (s.queue q).content)
    (move : QueueMove base s label s') (q : QueueId) : Attended s' q := by
  have empties : ∀ {r}, (s.queue r).head = none → (s.queue r).content = [] := fun {r} empty =>
    (empty ▸ chain r).eq_nil
  cases move with
  | @call t label pc position starts =>
    refine (attended q).quiet rfl ?_ (fun _ => rfl) (by rw [position]; exact Nat.zero_le _)
    rintro rfl
    cases label <;> cases starts
  | @acquire t r pc position free =>
    refine (attended q).quiet rfl ?_ (content_update rfl)
      (QueuePc.attends_of_entering position q).ge
    rintro rfl
    cases (QueuePc.of_entering position).2.1
  | clear position | go position | hit position | miss position | clearNext position
  | readDepth position | spurious position =>
    exact (attended q).quiet rfl (by simp) (fun _ => rfl)
      (by rw [position]; simp [QueuePc.attends])
  | setTail position | incDepth position | clearTail position | decDepth position
  | setShutdown position =>
    exact (attended q).quiet rfl (by simp) (content_update rfl)
      (by rw [position]; simp [QueuePc.attends])
  | release position =>
    exact (attended q).quiet rfl (by simp) (fun _ => rfl)
      (QueuePc.attends_of_leaving position q).le
  | linkFirst position => exact (attended q).linked position rfl rfl rfl
  | linkLast position => exact (attended q).linked position rfl rfl rfl
    -- A signal that nobody hears: no consumer of this queue is asleep.
  | @signalNone t r p position awake =>
    refine (attended q).moved rfl (by simp) fun ⟨u, sleeps⟩ => .inr ?_
    have other : r ≠ q := by
      rintro rfl
      exact awake u sleeps
    simp [position, QueuePc.attends, other]
  | signalOne position sleeps => exact (attended q).signalled position sleeps
  | broadcast position => exact (attended q).woken position
    -- Whoever goes to sleep has just seen the queue empty.
  | @sleep t r position empty =>
    by_cases same : r = q
    · subst same
      intro _
      simp [empties empty]
    · exact (attended q).quiet rfl (by simpa using same) (fun _ => rfl)
        (by rw [position]; simp [QueuePc.attends, same])
  | @nothing t r take position empty =>
    refine (attended q).moved rfl (by simp) fun _ => ?_
    by_cases same : r = q
    · subst same
      exact .inl (empties empty)
    · right
      rw [position]
      cases take <;> simp [QueuePc.attends, same]
    -- A consumer that takes a page stops attending, and there is a page less.
  | @unlink t r take p position first =>
    obtain ⟨rest, content⟩ := (chain r).of_head first
    refine (attended q).moved rfl (by simp) fun _ => .inr ?_
    rw [position]
    by_cases same : q = r
    · subst same
      cases take <;> simp [QueuePc.attends, content]
    · have apart : r ≠ q := fun equal => same equal.symm
      cases take <;> simp [QueuePc.attends, same, apart]

theorem attended_of_run {qnext : Nat → Option Nat}
    (run : Run (Queues.step base) Unqueued (Queues.create n qnext) s) (q : QueueId) :
    Attended s q := by
  refine run.invariant_along (Fifo base) (fun s => ∀ q, Attended s q) fifo_of_run ?_ ?_ q
  · rintro q ⟨t, sleeps⟩
    simp [Queues.create] at sleeps
  · exact fun fifo attended _ stepped =>
      attended_step attended fifo.threaded.chain (queueMove_of_step stepped)

/-! ## What the queues are -/

namespace QueuePc

/-- Inside `nox_queue_pop` of the queue. -/
def consumes (q : QueueId) : QueuePc → Prop
  | .lockPop r | .test r | .asleep r | .unlinkHead r .any | .clearTail r .any _ | .decDepth r .any _
  | .clearNext r .any _ | .unlockPop r .any _ => r = q
  | _ => False

/-- Inside `nox_queue_push` of the queue, with a signal still to come for the page that is linked. -/
def signals (q : QueueId) : QueuePc → Prop
  | .setTail r _ | .incDepth r _ | .signal r _ => r = q
  | _ => False

theorem of_attends {pc : QueuePc} {q : QueueId} (attends : pc.attends q ≠ 0) :
    pc.consumes q ∧ pc ≠ .asleep q ∨ pc.signals q := by
  cases pc with
  | lockPop r | test r | setTail r | incDepth r | signal r =>
    have same : r = q := by
      by_contra other
      simp [QueuePc.attends, other] at attends
    simp [consumes, signals, same]
  | unlinkHead r take =>
    cases take with
    | any =>
      have same : r = q := by
        by_contra other
        simp [QueuePc.attends, other] at attends
      simp [consumes, same]
    | ifBase want => simp [QueuePc.attends] at attends
  | _ => simp [QueuePc.attends] at attends

end QueuePc

/-- Queue `q` as a list.  The links from `head` always lead through the list; `tail` and `depth` are
those of the list while no call is in its critical section; at its end a call has done to the list
what it is for. -/
structure IsFifo (base : Nat → Nat) (s : Queues n) (q : QueueId) : Prop where
  chain : Chain s.qnext (s.queue q).head (s.queue q).content
  tail : s.lock q = none → (s.queue q).tail = (s.queue q).content.getLast?
  depth : s.lock q = none → (s.queue q).depth = (s.queue q).content.length
  empty : s.lock q = none →
    ((s.queue q).head = none ↔ (s.queue q).tail = none) ∧
      ((s.queue q).tail = none ↔ (s.queue q).depth = 0)
  /-- The list is what was pushed and not popped, in the order of the pushes. -/
  history : (s.queue q).pushed = (s.queue q).popped.map Prod.fst ++ (s.queue q).content
  push : ∀ t p, s.pc t = .unlockPush q p → (s.queue q).content = (s.queue q).entry ++ [p]
  pop : ∀ t take p, s.pc t = .unlockPop q take (some p) →
    (s.queue q).entry = p :: (s.queue q).content ∧ (s.queue q).popped.getLast? = some (p, t)
  /-- A page that a call is moving is in no queue and in no other call. -/
  owner : ∀ t p, (s.pc t).hand = some p →
    (∀ r, p ∉ (s.queue r).content) ∧ ∀ u, (s.pc u).hand = some p → u = t
  popIf : ∀ t want result, s.pc t = .unlockPop q (.ifBase want) result →
    popIfBase base want (s.queue q).entry = result.map (·, (s.queue q).content) ∧
      (result = none → (s.queue q).content = (s.queue q).entry)
  /-- `nox_queue_pop` returns `NULL` with nothing left. -/
  null : ∀ t, s.pc t = .unlockPop q .any none → (s.queue q).shutdown = true ∧
    (s.queue q).content = [] ∧ (s.queue q).pushed = (s.queue q).popped.map Prod.fst
  wakeup : (s.queue q).content ≠ [] → (∃ t, (s.pc t).consumes q) →
    (∃ t, (s.pc t).consumes q ∧ s.pc t ≠ .asleep q) ∨ ∃ t, (s.pc t).signals q

theorem Fifo.popIf (fifo : Fifo base s) {q : QueueId} {t : Fin n} {want : Nat} {result : Option Nat}
    (position : s.pc t = .unlockPop q (.ifBase want) result) :
    popIfBase base want (s.queue q).entry = result.map (·, (s.queue q).content) ∧
      (result = none → (s.queue q).content = (s.queue q).entry) := by
  have stage := fifo.sectioned.stage position rfl
  cases result with
  | some p =>
    obtain ⟨⟨entry, wanted, -⟩, -⟩ := stage
    rw [entry, popIfBase, if_pos (wanted want rfl)]
    exact ⟨rfl, by simp⟩
  | none =>
    obtain ⟨same, unwanted, -⟩ := stage
    refine ⟨?_, fun _ => same⟩
    cases entry : (s.queue q).entry with
    | nil => rfl
    | cons p rest =>
      rw [popIfBase, if_neg (unwanted p (by rw [entry]; rfl))]
      rfl

theorem Attended.wakeup {q : QueueId} (attended : Attended s q)
    (nonempty : (s.queue q).content ≠ []) (consumer : ∃ t, (s.pc t).consumes q) :
    (∃ t, (s.pc t).consumes q ∧ s.pc t ≠ .asleep q) ∨ ∃ t, (s.pc t).signals q := by
  by_cases sleeper : ∃ t, s.pc t = .asleep q
  · have many := attended sleeper
    -- A page in the queue, so there is somebody who attends to it.
    have some_ : ∑ t, (s.pc t).attends q ≠ 0 := by
      have positive := List.length_pos_iff.mpr nonempty
      omega
    obtain ⟨t, -, attends⟩ := Finset.exists_ne_zero_of_sum_ne_zero some_
    exact (QueuePc.of_attends attends).imp (fun awake => ⟨t, awake⟩) fun signals => ⟨t, signals⟩
  -- A consumer and no sleeper: it is awake.
  · obtain ⟨t, consumes⟩ := consumer
    exact .inl ⟨t, consumes, fun sleeps => sleeper ⟨t, sleeps⟩⟩

/-- Whatever any number of threads do with the two queues, as long as nobody pushes a page that is
in a queue or in another call: both are first-in first-out lists, in every state. -/
theorem queue_is_fifo {qnext : Nat → Option Nat}
    (run : Run (Queues.step base) Unqueued (Queues.create n qnext) s) (q : QueueId) :
    IsFifo base s q := by
  have fifo := fifo_of_run run
  have chain := fifo.threaded.chain q
  constructor
  · exact chain
  · exact fun free => (fifo.sectioned.settled q free).1
  · exact fun free => (fifo.sectioned.settled q free).2
  · intro free
    obtain ⟨tail, depth⟩ := fifo.sectioned.settled q free
    rw [chain.head_eq, tail, depth]
    simp
  · exact fifo.recorded q
  · intro t p position
    have stage := fifo.sectioned.stage position rfl
    exact stage.2
  · intro t take p position
    have stage := fifo.sectioned.stage position rfl
    exact ⟨stage.1.1, stage.1.2.2⟩
  · exact fun t p hand =>
      ⟨fifo.placed.outside t p hand, fun u too => fifo.placed.single u t p too hand⟩
  · exact fun t want result position => fifo.popIf position
  · intro t position
    have stage := fifo.sectioned.stage position rfl
    obtain ⟨same, empty, down, -⟩ := stage
    have nothing := same.trans empty
    refine ⟨down, nothing, ?_⟩
    have recorded : (s.queue q).pushed = _ := fifo.recorded q
    rw [recorded, nothing, List.append_nil]
  · exact (attended_of_run run q).wakeup

instance (s : Queues n) (label : QueueLabel n) : Decidable (Unqueued s label) :=
  match label with
  | .push _ _ p =>
    decidable_of_iff ((p ∉ (s.queue .q1).content ∧ p ∉ (s.queue .q2).content) ∧
        ∀ t, (s.pc t).hand ≠ some p)
      (and_congr_left fun _ => ⟨fun both q => by cases q <;> simp [both], fun all => ⟨all _, all _⟩⟩)
  | .pop _ _ | .popIfBase _ _ _ | .shutdown _ _ | .depth _ _ | .step _ | .signal _ _ | .spurious _ =>
    inferInstanceAs (Decidable True)

/-- A consumer sleeps, a push wakes it, another push comes before it gets the mutex, and it returns
the page that was pushed first. -/
theorem queue_is_fifo_of_sleeper :
    ∃ s : Queues 2, Run (Queues.step id) Unqueued (Queues.create 2 fun _ => some 0) s ∧
      s.pc 0 = .unlockPop .q1 .any (some 5) ∧ (s.queue .q1).content = [6] ∧
      (s.queue .q1).pushed = [5, 6] ∧ (s.queue .q1).head = some 6 ∧
      IsFifo id s .q1 ∧ IsFifo id s .q2 := by
  obtain ⟨s, run, position, popped, content⟩ :
      ∃ s : Queues 2, Run (Queues.step id) Unqueued (Queues.create 2 fun _ => some 0) s ∧
        s.pc 0 = .unlockPop .q1 .any (some 5) ∧ (s.queue .q1).popped = [(5, 0)] ∧
        (s.queue .q1).content = [6] :=
    Run.exists_of_follow (Queues.create 2 fun _ => some 0)
      (fun (s : Queues 2) label => decide (Unqueued s label))
      [.pop 0 .q1, .step 0, .step 0, .push 1 .q1 5, .step 1, .step 1, .step 1, .step 1, .step 1,
        .signal 1 (some 0), .step 1, .push 1 .q1 6, .step 1, .step 1, .step 1, .step 1, .step 1,
        .signal 1 none, .step 1, .step 0, .step 0, .step 0, .step 0, .step 0, .step 0]
      (fun _ _ passed => of_decide_eq_true passed)
      (fun s => s.pc 0 = .unlockPop .q1 .any (some 5) ∧ (s.queue .q1).popped = [(5, 0)] ∧
        (s.queue .q1).content = [6]) (by decide +kernel)
  have fifo := queue_is_fifo run .q1
  have history := fifo.history
  have chain := fifo.chain
  rw [popped, content] at history
  rw [content] at chain
  exact ⟨s, run, position, content, history, chain.head_eq, fifo, queue_is_fifo run .q2⟩

end NoxDB

import NoxDB.Queue.Fifo

/-! # The calls of one thread

The calls of `queue.c` from beginning to end, with no other thread in between: a push puts its
page behind the others, a pop takes the first.  So lists that are changed by whole calls, as the
engine has them, are the lists in memory.
-/

namespace NoxDB

open Function (update)
open Library.Links
open Library.Runs

variable {n : Nat} {base : Nat → Nat}

/-- What `queueMove_of_step` says of a step is all of it. -/
theorem step_of_queueMove {s s' : Queues n} {label : QueueLabel n}
    (move : QueueMove base s label s') : s.step base label = some s' := by
  cases move with
  | call position starts =>
    cases label with
    | push t q p | pop t q | popIfBase t q want | shutdown t q | depth t q =>
      cases starts
      simp [Queues.step, position, Queues.setPc]
    | _ => cases starts
  | @acquire t q pc position free =>
    cases here : s.pc t with
    | lockPush | lockPop | lockPopIf | lockShutdown | lockDepth =>
      rw [here] at position
      cases position
      simp [Queues.step, Queues.advance, here, Queues.acquire, free, Queues.setPc, Queues.setQueue]
    | _ =>
      rw [here] at position
      cases position
  | @release t q position =>
    cases here : s.pc t with
    | unlockPush | unlockPop | unlockShutdown | unlockDepth =>
      rw [here] at position
      cases position
      simp [Queues.step, Queues.advance, here, Queues.release, Queues.setPc]
    | _ =>
      rw [here] at position
      cases position
  | signalOne position sleeps =>
    simp [Queues.step, Queues.signal, position, sleeps, Queues.setPc]
  | signalNone position awake =>
    simp [Queues.step, Queues.signal, position, awake, Queues.setPc]
  | spurious position => simp [Queues.step, position, Queues.setPc]
  | clear position | setTail position | incDepth position | clearTail position
  | decDepth position | clearNext position | setShutdown position | readDepth position =>
    simp [Queues.step, Queues.advance, position, Queues.setPc, Queues.setQueue]
  | broadcast position =>
    simp [Queues.step, Queues.advance, position, Queues.setPc, Queues.wakeAll]
  | linkFirst position empty =>
    simp [Queues.step, Queues.advance, position, Queues.setPc, Queues.setQueue, Queues.link, empty]
  | linkLast position used =>
    simp [Queues.step, Queues.advance, position, Queues.setPc, Queues.setQueue, Queues.link, used]
  | sleep position empty running =>
    simp [Queues.step, Queues.advance, position, Queues.setPc, Queues.release, empty, running]
  | @go t q position ready =>
    have awake : ¬ ((s.queue q).head = none ∧ (s.queue q).shutdown = false) := by
      rintro ⟨empty, running⟩
      simp [empty, running] at ready
    simp [Queues.step, Queues.advance, position, Queues.setPc, awake]
  | hit position first wanted =>
    simp [Queues.step, Queues.advance, position, Queues.setPc, first, wanted]
  | @miss t q want position unwanted =>
    have other : (s.queue q).head.any (fun p => base p == want) = false := by
      cases first : (s.queue q).head with
      | none => rfl
      | some p => simpa using unwanted p first
    simp [Queues.step, Queues.advance, position, Queues.setPc, other]
  | nothing position empty =>
    simp [Queues.step, Queues.advance, position, Queues.setPc, empty]
  | unlink position first =>
    simp [Queues.step, Queues.advance, position, Queues.setPc, Queues.setQueue, first]

/-- What the only thread is at, and the lists. -/
structure Queues.View (base : Nat → Nat) (s : Queues 1) (pc : QueuePc)
    (content : QueueId → List Nat) : Prop where
  fifo : Fifo base s
  pc : s.pc 0 = pc
  content : ∀ q, (s.queue q).content = content q

/-- The only thread can get from `s` to `pc` with these lists. -/
def Queues.Gets (base : Nat → Nat) (s : Queues 1) (pc : QueuePc)
    (content : QueueId → List Nat) : Prop :=
  ∃ s', Run (Queues.step base) Unqueued s s' ∧ s'.View base pc content

variable {s : Queues 1} {q : QueueId} {p : Nat} {pc pc' : QueuePc}
  {content content' : QueueId → List Nat}

theorem Queues.View.lock (view : s.View base pc content) (outside : pc.holds = none) (q : QueueId) :
    s.lock q = none := by
  rw [Option.eq_none_iff_forall_ne_some]
  intro t holder
  obtain rfl := Subsingleton.elim t 0
  have holds : (s.pc 0).holds = some q := (view.fifo.locked q 0).mp holder
  rw [view.pc, outside] at holds
  cases holds

theorem Queues.View.head (view : s.View base pc content) (q : QueueId) :
    (s.queue q).head = (content q).head? := by
  rw [(view.fifo.threaded.chain q).head_eq, view.content]

theorem Queues.Gets.move (gets : s.Gets base pc content)
    (next : ∀ m : Queues 1, m.View base pc content → ∃ label m', Unqueued m label ∧
      QueueMove base m label m' ∧ m'.pc 0 = pc' ∧ ∀ r, (m'.queue r).content = content' r) :
    s.Gets base pc' content' := by
  obtain ⟨m, run, view⟩ := gets
  obtain ⟨label, m', unqueued, move, position, lists⟩ := next m view
  exact ⟨m', .tail run unqueued (step_of_queueMove move), view.fifo.step unqueued move, position,
    lists⟩

/-- A step that moves only the thread. -/
theorem Queues.Gets.walk (gets : s.Gets base pc content)
    (next : ∀ m : Queues 1, m.View base pc content → ∃ m', QueueMove base m (.step 0) m' ∧
      m'.pc 0 = pc' ∧ m'.queue = m.queue) : s.Gets base pc' content := by
  refine gets.move fun m view => ?_
  obtain ⟨m', move, position, same⟩ := next m view
  exact ⟨.step 0, m', trivial, move, position, fun r => by rw [same, view.content]⟩

end NoxDB

import NoxDB.Engine.InFlight

/-! # No page is lost or handled twice

A pool with any number of threads in each stage, in any interleaving.  What a step of a thread
does with pages is one of a few transfers between the queues, the thread's hands and the lists
of what was pushed and done (`Passes`); from these the two results follow for whole runs.  Every
push is accounted for, and as long as the foreground pushes only pages that the pool does not
hold, no page is in two places: no two threads ever have the same page, although with several
threads the order of the pages is lost.
-/

namespace NoxDB

open Function (update)
open Library.Runs
open Library.Counting

/-- The pages in the queues and in the history of a pool. -/
structure Ledger (P : Type) where
  q1 : List P
  q2 : List P
  pushed1 : List P
  pushed2 : List P
  filled : List P
  written : List P
  repushed : List P

/-- What a step of a thread does with pages, and with those in its hands. -/
inductive Passes {P : Type} (l : Ledger P) : Ledger P → List P → List P → Prop where
  | keep {hand} : Passes l l hand hand
  | pop1 {p rest} (front : l.q1 = p :: rest) : Passes l { l with q1 := rest } [] [p]
  | pop2 {p rest hand} (front : l.q2 = p :: rest) :
      Passes l { l with q2 := rest } hand (hand ++ [p])
  | forward {p} :
      Passes l
        { l with q2 := l.q2 ++ [p], pushed2 := l.pushed2 ++ [p], filled := l.filled ++ [p] } [p] []
  | back1 {p} :
      Passes l
        { l with
          q1 := l.q1 ++ [p]
          pushed1 := l.pushed1 ++ [p]
          repushed := l.repushed ++ [p] } [p] []
  | back2 {p hand} :
      Passes l
        { l with
          q2 := l.q2 ++ [p]
          pushed2 := l.pushed2 ++ [p]
          repushed := l.repushed ++ [p] } (hand ++ [p]) hand
  | drop {p} : Passes l { l with filled := l.filled ++ [p] } [p] []
  | write {batch} : Passes l { l with written := l.written ++ batch } batch []

variable {P : Type} {s1 s2 : Nat}

def Pool.ledger (s : Pool P s1 s2) : Ledger P where
  q1 := s.q1
  q2 := s.q2
  pushed1 := s.pushed1
  pushed2 := s.pushed2
  filled := s.filled
  written := s.written
  repushed := s.repushed

variable {base : P → Nat} {w : Nat} {s s' : Pool P s1 s2} {label : PoolLabel P s1 s2}

theorem popIfBase_front {want : Nat} {queue rest : List P} {next : P}
    (taken : popIfBase base want queue = some (next, rest)) : queue = next :: rest := by
  cases queue with
  | nil => simp [popIfBase] at taken
  | cons first more =>
    simp only [popIfBase] at taken
    split at taken
    · cases taken
      rfl
    · contradiction

theorem writerStep_passes {j : Fin s2} {f : Writer P}
    (stepped : s.writerStep base w j f = some s') :
    ∃ f', s'.writer = update s.writer j f' ∧ s'.filler = s.filler ∧
      Passes s.ledger s'.ledger f.hand f'.hand := by
  cases f with
  | idle =>
    cases queue : s.q2 with
    | nil => simp [Pool.writerStep, queue] at stepped
    | cons p rest =>
      simp only [Pool.writerStep, queue, Option.some.injEq] at stepped
      subst stepped
      exact ⟨_, rfl, rfl, .pop2 queue⟩
  | popped p =>
    simp only [Pool.writerStep] at stepped
    split at stepped
    · cases stepped
      exact ⟨_, rfl, rfl, .keep⟩
    · cases stepped
      exact ⟨_, rfl, rfl, .keep⟩
  | rePush p =>
    cases stepped
    exact ⟨_, rfl, rfl, @Passes.back2 _ _ p []⟩
  | parked =>
    cases stepped
    exact ⟨_, rfl, rfl, .keep⟩
  | detach first rest =>
    cases stepped
    refine ⟨_, rfl, rfl, ?_⟩
    unfold Pool.ledger
    exact .keep
  | collect first rest =>
    simp only [Pool.writerStep] at stepped
    split at stepped
    · split at stepped
      · next next queue taken =>
        cases stepped
        exact ⟨_, rfl, rfl, .pop2 (popIfBase_front taken)⟩
      · cases stepped
        exact ⟨_, rfl, rfl, .keep⟩
    · cases stepped
      exact ⟨_, rfl, rfl, .keep⟩
  | check first rest next =>
    simp only [Pool.writerStep] at stepped
    split at stepped
    · cases stepped
      exact ⟨_, rfl, rfl, .keep⟩
    · cases stepped
      exact ⟨_, rfl, rfl, .keep⟩
  | putBack first rest next =>
    cases stepped
    exact ⟨_, rfl, rfl, .back2⟩
  | writing first rest =>
    cases stepped
    exact ⟨_, rfl, rfl, .write⟩
  | exited => simp [Pool.writerStep] at stepped

variable [DecidableEq P]

theorem fillerStep_passes {i : Fin s1} {ok : Bool} {f : Filler P}
    (stepped : s.fillerStep i ok f = some s') :
    ∃ f', s'.filler = update s.filler i f' ∧ s'.writer = s.writer ∧
      Passes s.ledger s'.ledger f.hand f'.hand := by
  cases f with
  | idle =>
    cases queue : s.q1 with
    | nil => simp [Pool.fillerStep, queue] at stepped
    | cons p rest =>
      simp only [Pool.fillerStep, queue, Option.some.injEq] at stepped
      subst stepped
      exact ⟨_, rfl, rfl, .pop1 queue⟩
  | popped p =>
    simp only [Pool.fillerStep] at stepped
    split at stepped
    · cases stepped
      exact ⟨_, rfl, rfl, .keep⟩
    · split at stepped
      · cases stepped
        exact ⟨_, rfl, rfl, .keep⟩
      · cases stepped
        exact ⟨_, rfl, rfl, .keep⟩
  | forward p =>
    cases stepped
    exact ⟨_, rfl, rfl, .forward⟩
  | rePush p =>
    cases stepped
    exact ⟨_, rfl, rfl, .back1⟩
  | parked =>
    cases stepped
    exact ⟨_, rfl, rfl, .keep⟩
  | guardWait p | reading p =>
    cases stepped
    refine ⟨_, rfl, rfl, ?_⟩
    unfold Pool.ledger
    exact .keep
  | finish p read =>
    cases read with
    | true =>
      cases stepped
      exact ⟨_, rfl, rfl, .keep⟩
    | false =>
      cases stepped
      exact ⟨_, rfl, rfl, .drop⟩
  | exited => simp [Pool.fillerStep] at stepped

/-! ## Counting one page -/

namespace Ledger

/-- The foreground pushes a page to Queue-1. -/
def push1 (l : Ledger P) (p : P) : Ledger P :=
  { l with q1 := l.q1 ++ [p], pushed1 := l.pushed1 ++ [p] }

/-- The foreground pushes a page to Queue-2. -/
def push2 (l : Ledger P) (p : P) : Ledger P :=
  { l with q2 := l.q2 ++ [p], pushed2 := l.pushed2 ++ [p] }

def queued (l : Ledger P) (p : P) : Nat := l.q1.count p + l.q2.count p

def pushed (l : Ledger P) (p : P) : Nat := l.pushed1.count p + l.pushed2.count p

/-- The times that a stage was done with the page. -/
def done (l : Ledger P) (p : P) : Nat := l.filled.count p + l.written.count p + l.repushed.count p

end Ledger

namespace Passes

variable {l l' : Ledger P} {before after : List P}

theorem balances (passes : Passes l l' before after) (p : P) :
    l'.pushed p + (l.queued p + before.count p + l.done p) =
      l.pushed p + (l'.queued p + after.count p + l'.done p) := by
  cases passes with
  | keep => omega
  | pop1 front | pop2 front =>
    simp only [Ledger.pushed, Ledger.queued, Ledger.done, front, List.count_append,
      List.count_cons, List.count_nil]
    omega
  | forward | back1 | back2 | drop | write =>
    simp only [Ledger.pushed, Ledger.queued, Ledger.done, List.count_append, List.count_nil]
    omega

/-- A thread brings no page into the pool. -/
theorem queued_le (passes : Passes l l' before after) (p : P) :
    l'.queued p + after.count p ≤ l.queued p + before.count p := by
  cases passes with
  | keep => omega
  | pop1 front | pop2 front =>
    simp only [Ledger.queued, front, List.count_append, List.count_cons, List.count_nil]
    omega
  | forward | back1 | back2 | drop | write =>
    simp only [Ledger.queued, List.count_append, List.count_nil]
    omega

end Passes

namespace Pool

/-- How often the page is in the hands of a thread. -/
def hands (s : Pool P s1 s2) (p : P) : Nat :=
  ∑ i, (s.filler i).hand.count p + ∑ j, (s.writer j).hand.count p

/-- How often the page is in the pool, in a queue or in the hands of a thread. -/
def holding (s : Pool P s1 s2) (p : P) : Nat := s.ledger.queued p + s.hands p

/-- The foreground pushes only pages that the pool does not hold. -/
def Fresh (s : Pool P s1 s2) : PoolLabel P s1 s2 → Prop
  | .push1 p | .push2 p => s.holding p = 0
  | _ => True

/-- A step is a push of the foreground, or a thread passes pages. -/
theorem passes_of_step (stepped : s.step base w label = some s') :
    (∃ p, label = .push1 p ∧ s'.ledger = s.ledger.push1 p ∧ s'.hands = s.hands) ∨
    (∃ p, label = .push2 p ∧ s'.ledger = s.ledger.push2 p ∧ s'.hands = s.hands) ∨
    ∃ before after, Passes s.ledger s'.ledger before after ∧
      ∀ p, s'.hands p + before.count p = s.hands p + after.count p := by
  have fillerMoves : ∀ {i : Fin s1} {f : Filler P}, s'.filler = update s.filler i f →
      s'.writer = s.writer →
      ∀ p, s'.hands p + (s.filler i).hand.count p = s.hands p + f.hand.count p := by
    intro i f moved still p
    have changed := weigh_update (fun f : Filler P => f.hand.count p) s.filler i f
    rw [hands, hands, moved, still]
    omega
  have writerMoves : ∀ {j : Fin s2} {f : Writer P}, s'.writer = update s.writer j f →
      s'.filler = s.filler →
      ∀ p, s'.hands p + (s.writer j).hand.count p = s.hands p + f.hand.count p := by
    intro j f moved still p
    have changed := weigh_update (fun f : Writer P => f.hand.count p) s.writer j f
    rw [hands, hands, moved, still]
    omega
  cases label with
  | push1 p =>
    cases stepped
    exact .inl ⟨p, rfl, rfl, rfl⟩
  | push2 p =>
    simp only [Pool.step] at stepped
    split at stepped
    · cases stepped
      exact .inr (.inl ⟨p, rfl, rfl, rfl⟩)
    · contradiction
  | merge p =>
    cases stepped
    exact .inr (.inr ⟨[], [], .keep, fun _ => rfl⟩)
  | filler i ok =>
    obtain ⟨f, moved, still, passes⟩ := fillerStep_passes stepped
    exact .inr (.inr ⟨_, _, passes, fillerMoves moved still⟩)
  | writer j =>
    obtain ⟨f, moved, still, passes⟩ := writerStep_passes stepped
    exact .inr (.inr ⟨_, _, passes, writerMoves moved still⟩)
  | exit1 i =>
    simp only [Pool.step] at stepped
    split at stepped
    · next idle =>
      cases stepped
      have same := fillerMoves (i := i) (f := .exited) rfl rfl
      rw [idle] at same
      exact .inr (.inr ⟨_, _, .keep, same⟩)
    · contradiction
  | exit2 j =>
    simp only [Pool.step] at stepped
    split at stepped
    · next idle _ =>
      cases stepped
      have same := writerMoves (j := j) (f := .exited) rfl rfl
      rw [idle] at same
      exact .inr (.inr ⟨_, _, .keep, same⟩)
    · contradiction

theorem balances_step (stepped : s.step base w label = some s') (p : P)
    (balanced : s.ledger.pushed p = s.holding p + s.ledger.done p) :
    s'.ledger.pushed p = s'.holding p + s'.ledger.done p := by
  rcases passes_of_step stepped with ⟨q, -, ledger, hands⟩ | ⟨q, -, ledger, hands⟩ |
    ⟨before, after, passes, hands⟩
  · simp only [holding, ledger, hands, Ledger.push1, Ledger.pushed, Ledger.queued, Ledger.done,
      List.count_append] at balanced ⊢
    omega
  · simp only [holding, ledger, hands, Ledger.push2, Ledger.pushed, Ledger.queued, Ledger.done,
      List.count_append] at balanced ⊢
    omega
  · have moved := passes.balances p
    have kept := hands p
    simp only [holding] at balanced ⊢
    omega

theorem holding_step (stepped : s.step base w label = some s') (fresh : s.Fresh label)
    (once : ∀ p, s.holding p ≤ 1) (p : P) : s'.holding p ≤ 1 := by
  have here := once p
  -- A page that is pushed was not in the pool.
  have pushes : ∀ q, s.holding q = 0 → s.holding p + [q].count p ≤ 1 := by
    intro q absent
    by_cases same : q = p
    · subst same
      simp [absent]
    · simpa [same] using here
  rcases passes_of_step stepped with ⟨q, rfl, ledger, hands⟩ | ⟨q, rfl, ledger, hands⟩ |
    ⟨before, after, passes, hands⟩
  · have room := pushes q fresh
    simp only [holding, ledger, hands, Ledger.push1, Ledger.queued, List.count_append] at room ⊢
    omega
  · have room := pushes q fresh
    simp only [holding, ledger, hands, Ledger.push2, Ledger.queued, List.count_append] at room ⊢
    omega
  · have fewer := passes.queued_le p
    have kept := hands p
    simp only [holding] at here ⊢
    omega

end Pool

/-- Whatever the threads of a pool do, in whatever numbers and order, and whatever is read and
written: every push is matched by the page being in the pool or by a stage being done with it.
If the foreground pushes only pages that the pool does not hold, then no page is in the pool
twice, so a page in the hands of one thread is in no queue and in the hands of no other thread. -/
theorem pool_conserves (base : P → Nat) (w : Nat) {s : Pool P s1 s2}
    (run : Run (Pool.step base w) (fun _ _ => True) (Pool.init P s1 s2) s) :
    (∀ p, s.ledger.pushed p = s.holding p + s.ledger.done p) ∧
    (Run (Pool.step base w) Pool.Fresh (Pool.init P s1 s2) s → ∀ p, s.holding p ≤ 1) := by
  constructor
  · refine run.invariant (fun s => ∀ p, s.ledger.pushed p = s.holding p + s.ledger.done p) ?_
      fun balanced _ stepped p => Pool.balances_step stepped p (balanced p)
    intro p
    simp [Pool.holding, Pool.hands, Pool.ledger, Pool.init, Ledger.pushed, Ledger.queued,
      Ledger.done, Filler.hand, Writer.hand]
  · intro fresh
    refine fresh.invariant (fun s => ∀ p, s.holding p ≤ 1) ?_
      fun once fresh stepped => Pool.holding_step stepped fresh once
    intro p
    simp [Pool.holding, Pool.hands, Pool.ledger, Pool.init, Ledger.queued, Filler.hand,
      Writer.hand]

instance (s : Pool P s1 s2) (label : PoolLabel P s1 s2) : Decidable (s.Fresh label) :=
  match label with
  | .push1 p | .push2 p => inferInstanceAs (Decidable (s.holding p = 0))
  | .merge _ | .filler _ _ | .writer _ | .exit1 _ | .exit2 _ => inferInstanceAs (Decidable True)

/-- Two threads of Stage-1 have a page each, and the first is done with its page, which Stage-2 has
taken. -/
theorem pool_conserves_of_two :
    ∃ s : Pool Nat 2 1, Run (Pool.step (fun p => p) 8) Pool.Fresh (Pool.init Nat 2 1) s ∧
      s.filler 1 = .popped 6 ∧ s.writer 0 = .popped 5 ∧
      s.ledger.pushed 5 = s.holding 5 + s.ledger.done 5 ∧ s.ledger.pushed 5 = 2 ∧
      s.holding 5 ≤ 1 ∧ s.holding 6 ≤ 1 := by
  obtain ⟨s, run, filler, writer, pushed⟩ :
      ∃ s : Pool Nat 2 1, Run (Pool.step (fun p => p) 8) Pool.Fresh (Pool.init Nat 2 1) s ∧
        s.filler 1 = .popped 6 ∧ s.writer 0 = .popped 5 ∧ s.ledger.pushed 5 = 2 :=
    Run.exists_of_follow (Pool.init Nat 2 1)
      (fun (s : Pool Nat 2 1) label => decide (s.Fresh label))
      [.push1 5, .push1 6, .filler 0 true, .filler 1 true, .filler 0 true, .filler 0 true,
        .filler 0 true, .filler 0 true, .filler 0 true, .writer 0]
      (fun _ _ passed => of_decide_eq_true passed)
      (fun s => s.filler 1 = .popped 6 ∧ s.writer 0 = .popped 5 ∧ s.ledger.pushed 5 = 2)
      (by decide +kernel)
  obtain ⟨balanced, once⟩ := pool_conserves (fun p => p) 8 (run.weaken fun _ _ _ => trivial)
  exact ⟨s, run, filler, writer, balanced 5, pushed, once run 5, once run 6⟩

end NoxDB

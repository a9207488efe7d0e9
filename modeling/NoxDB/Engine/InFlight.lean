import NoxDB.Engine.Batch
import NoxDB.Library.Counting

/-! # Bytes in flight

The flusher on its own with any number of Stage-1 and Stage-2 threads and any batch width: the
two queues, `bcount`, and a position for each thread, over any pages.  Whether a page is full is
decided by merges outside the flusher and by Stage-1.  `bcount` is the sum of what the threads
have bracketed (`Balanced`), which bounds what a thread outside its bracket can see; with one
thread in each stage the threshold is out of reach, so no page is deferred and the queues are
served in the order of the pushes (`Served`).
-/

namespace NoxDB

open Function (update)
open Library.Runs
open Library.Counting

/-! ## The pool -/

/-- Positions of a Stage-1 thread. -/
inductive Filler (P : Type) where
  | idle
  | popped (p : P)
  /-- Before the push to Queue-2. -/
  | forward (p : P)
  | rePush (p : P)
  /-- In `wait_not_busy`. -/
  | parked
  /-- Past the check, up to `bcount_add`. -/
  | guardWait (p : P)
  /-- Between `bcount_add` and `bcount_sub`. -/
  | reading (p : P)
  | finish (p : P) (ok : Bool)
  | exited
deriving DecidableEq

/-- Positions of a Stage-2 thread; a batch is its first page and the rest. -/
inductive Writer (P : Type) where
  | idle
  | popped (p : P)
  | rePush (p : P)
  /-- In `wait_not_busy`. -/
  | parked
  | collect (first : P) (rest : List P)
  | check (first : P) (rest : List P) (next : P)
  | putBack (first : P) (rest : List P) (next : P)
  /-- `stage2_detach` on the batch, up to `bcount_add`. -/
  | detach (first : P) (rest : List P)
  /-- Between `bcount_add` and `bcount_sub`, whatever is retried or fails. -/
  | writing (first : P) (rest : List P)
  | exited
deriving DecidableEq

/-- A flusher with `s1` Stage-1 threads and `s2` Stage-2 threads. -/
structure Pool (P : Type) (s1 s2 : Nat) where
  q1 : List P
  q2 : List P
  bcount : Nat
  /-- The data zone is covered. -/
  full : P → Bool
  filler : Fin s1 → Filler P
  writer : Fin s2 → Writer P
  /-- All pushes to Queue-1 and to Queue-2, in order. -/
  pushed1 : List P
  pushed2 : List P
  /-- What Stage-1 is done with, and what Stage-2 has written, in order. -/
  filled : List P
  written : List P
  /-- What a stage pushed back to the queue it came from. -/
  repushed : List P

/-- Who moves: the foreground pushes a page to a queue or fills one up, a thread of a stage takes
its next step (`ok` is the outcome of its reads), or it exits. -/
inductive PoolLabel (P : Type) (s1 s2 : Nat) where
  | push1 (p : P)
  | push2 (p : P)
  | merge (p : P)
  | filler (i : Fin s1) (ok : Bool)
  | writer (j : Fin s2)
  | exit1 (i : Fin s1)
  | exit2 (j : Fin s2)

/-- `bcount_add` on a 64-bit counter -/
def bcountAdd (bcount bytes : Nat) : Nat := (bcount + bytes) % word

/-- `bcount_sub` on a 64-bit counter -/
def bcountSub (bcount bytes : Nat) : Nat := (bcount + (word - bytes % word)) % word

namespace Pool

variable {P : Type} [DecidableEq P] {s1 s2 : Nat}

/-- `ssd_is_busy` -/
def busy (s : Pool P s1 s2) : Bool := bcountBusyThreshold ≤ s.bcount

def setFiller (s : Pool P s1 s2) (i : Fin s1) (f : Filler P) : Pool P s1 s2 :=
  { s with filler := update s.filler i f }

def setWriter (s : Pool P s1 s2) (j : Fin s2) (f : Writer P) : Pool P s1 s2 :=
  { s with writer := update s.writer j f }

/-- `stage1_loop` -/
def fillerStep (s : Pool P s1 s2) (i : Fin s1) (ok : Bool) : Filler P → Option (Pool P s1 s2)
  | .idle =>
    match s.q1 with
    | p :: rest => some { s.setFiller i (.popped p) with q1 := rest }
    | [] => none
  | .popped p =>
    if s.full p then some (s.setFiller i (.forward p))
    else if s.busy then some (s.setFiller i (.rePush p))
    else some (s.setFiller i (.guardWait p))
  | .forward p =>
    some { s.setFiller i .idle with
      q2 := s.q2 ++ [p]
      pushed2 := s.pushed2 ++ [p]
      filled := s.filled ++ [p] }
  | .rePush p =>
    some { s.setFiller i .parked with
      q1 := s.q1 ++ [p]
      pushed1 := s.pushed1 ++ [p]
      repushed := s.repushed ++ [p] }
  | .parked => some (s.setFiller i .idle)
  | .guardWait p =>
    some { s.setFiller i (.reading p) with bcount := bcountAdd s.bcount zoneSize }
  | .reading p =>
    some { s.setFiller i (.finish p ok) with bcount := bcountSub s.bcount zoneSize }
  | .finish p true =>
    some { s.setFiller i (.forward p) with full := update s.full p true }
  | .finish p false => some { s.setFiller i .idle with filled := s.filled ++ [p] }
  | .exited => none

/-- `stage2_loop`, with `stage2_collect` and batches of at most `w` pages. -/
def writerStep (base : P → Nat) (w : Nat) (s : Pool P s1 s2) (j : Fin s2) :
    Writer P → Option (Pool P s1 s2)
  | .idle =>
    match s.q2 with
    | p :: rest => some { s.setWriter j (.popped p) with q2 := rest }
    | [] => none
  | .popped p =>
    if s.busy then some (s.setWriter j (.rePush p)) else some (s.setWriter j (.collect p []))
  | .rePush p =>
    some { s.setWriter j .parked with
      q2 := s.q2 ++ [p]
      pushed2 := s.pushed2 ++ [p]
      repushed := s.repushed ++ [p] }
  | .parked => some (s.setWriter j .idle)
  | .collect first rest =>
    if rest.length + 1 < w then
      match popIfBase base (wantFor base first (rest.length + 1)) s.q2 with
      | some (next, queue) => some { s.setWriter j (.check first rest next) with q2 := queue }
      | none => some (s.setWriter j (.detach first rest))
    else
      some (s.setWriter j (.detach first rest))
  | .check first rest next =>
    if s.full next then some (s.setWriter j (.collect first (rest ++ [next])))
    else some (s.setWriter j (.putBack first rest next))
  | .putBack first rest next =>
    some { s.setWriter j (.detach first rest) with
      q2 := s.q2 ++ [next]
      pushed2 := s.pushed2 ++ [next]
      repushed := s.repushed ++ [next] }
  | .detach first rest =>
    some { s.setWriter j (.writing first rest) with
      bcount := bcountAdd s.bcount ((rest.length + 1) * zoneSize) }
  | .writing first rest =>
    some { s.setWriter j .idle with
      bcount := bcountSub s.bcount ((rest.length + 1) * zoneSize)
      written := s.written ++ first :: rest }
  | .exited => none

/-- One step of the flusher or of the foreground beside it. -/
def step (base : P → Nat) (w : Nat) (s : Pool P s1 s2) :
    PoolLabel P s1 s2 → Option (Pool P s1 s2)
  | .push1 p => some { s with q1 := s.q1 ++ [p], pushed1 := s.pushed1 ++ [p] }
  | .push2 p =>
    if s.full p then some { s with q2 := s.q2 ++ [p], pushed2 := s.pushed2 ++ [p] } else none
  | .merge p => some { s with full := update s.full p true }
  | .filler i ok => s.fillerStep i ok (s.filler i)
  | .writer j => writerStep base w s j (s.writer j)
  -- Also before its first pop, for lack of a scratch zone.
  | .exit1 i =>
    match s.filler i with
    | .idle => some (s.setFiller i .exited)
    | _ => none
  | .exit2 j =>
    match s.writer j, s.q2 with
    | .idle, [] => some (s.setWriter j .exited)
    | _, _ => none

/-- The flusher as `otflush_start` leaves it. -/
def init (P : Type) (s1 s2 : Nat) : Pool P s1 s2 where
  q1 := []
  q2 := []
  bcount := 0
  full := fun _ => false
  filler := fun _ => .idle
  writer := fun _ => .idle
  pushed1 := []
  pushed2 := []
  filled := []
  written := []
  repushed := []

end Pool

/-! ## What is bracketed -/

section Accounting

variable {P : Type}

/-- The bytes a Stage-1 thread has bracketed. -/
def Filler.bytes : Filler P → Nat
  | .reading _ => zoneSize
  | _ => 0

/-- The bytes a Stage-2 thread has bracketed. -/
def Writer.bytes : Writer P → Nat
  | .writing _ rest => (rest.length + 1) * zoneSize
  | _ => 0

/-- The pages in a Stage-2 thread's hands. -/
def Writer.hand : Writer P → List P
  | .popped p | .rePush p => [p]
  | .collect first rest | .detach first rest | .writing first rest => first :: rest
  | .check first rest next | .putBack first rest next => first :: rest ++ [next]
  | .idle | .parked | .exited => []

/-- The page in a Stage-1 thread's hands. -/
def Filler.hand : Filler P → List P
  | .popped p | .forward p | .rePush p | .guardWait p | .reading p | .finish p _ => [p]
  | .idle | .parked | .exited => []

variable {s1 s2 : Nat}

/-- The bytes of the I/O currently bracketed by `bcount_add` and `bcount_sub`. -/
def Pool.inflight (s : Pool P s1 s2) : Nat :=
  ∑ i, (s.filler i).bytes + ∑ j, (s.writer j).bytes

theorem Filler.bytes_le (f : Filler P) : f.bytes ≤ zoneSize := by
  cases f <;> simp [Filler.bytes]

theorem Writer.bytes_le (f : Writer P) : f.bytes ≤ f.hand.length * zoneSize := by
  cases f <;> simp [Writer.bytes, Writer.hand]

theorem Pool.filler_le_inflight (s : Pool P s1 s2) (i : Fin s1) :
    (s.filler i).bytes ≤ s.inflight :=
  (Finset.single_le_sum (fun j _ => Nat.zero_le (s.filler j).bytes) (Finset.mem_univ i)).trans
    (Nat.le_add_right _ _)

theorem Pool.writer_le_inflight (s : Pool P s1 s2) (j : Fin s2) :
    (s.writer j).bytes ≤ s.inflight :=
  (Finset.single_le_sum (fun k _ => Nat.zero_le (s.writer k).bytes) (Finset.mem_univ j)).trans
    (Nat.le_add_left _ _)

/-- What a thread with `before` bytes bracketed, and `after` bytes after its step, does to
`bcount`. -/
inductive Brackets (before after bcount : Nat) : Nat → Prop where
  | keep (same : after = before) : Brackets before after bcount bcount
  | add (outside : before = 0) : Brackets before after bcount (bcountAdd bcount after)
  | sub (outside : after = 0) : Brackets before after bcount (bcountSub bcount before)

theorem Brackets.sum {before after bcount bcount' total total' : Nat}
    (brackets : Brackets before after bcount bcount') (sum : bcount = total % word)
    (changed : total' + before = total + after) : bcount' = total' % word := by
  cases brackets with
  | keep same =>
    rw [sum]
    congr 1
    omega
  | add outside =>
    rw [bcountAdd, sum, Nat.mod_add_mod]
    congr 1
    omega
  | sub outside =>
    subst outside
    have small : before % word < word := Nat.mod_lt _ (by decide)
    rw [Nat.add_zero] at changed
    rw [bcountSub, sum, Nat.mod_add_mod, ← changed]
    -- The multiple of 2^64 in `before` and the one added drop out.
    have split := Nat.div_add_mod before word
    have shifted : total' + before + (word - before % word) =
        total' + word * (before / word + 1) := by
      rw [Nat.mul_add, Nat.mul_one]
      omega
    rw [shifted, Nat.add_mul_mod_self_left]

/-- `bcount` is what is bracketed, and no batch is too long. -/
structure Balanced (w : Nat) (s : Pool P s1 s2) : Prop where
  sum : s.bcount = s.inflight % word
  batch : ∀ j, (s.writer j).hand.length ≤ w

variable {w : Nat} {s s' : Pool P s1 s2}

theorem Balanced.init (w : Nat) : Balanced w (Pool.init P s1 s2) := by
  refine ⟨?_, fun j => Nat.zero_le _⟩
  simp [Pool.init, Pool.inflight, Filler.bytes, Writer.bytes]

theorem Balanced.filler {i : Fin s1} {f : Filler P} (balanced : Balanced w s)
    (moved : s'.filler = update s.filler i f) (still : s'.writer = s.writer)
    (brackets : Brackets (s.filler i).bytes f.bytes s.bcount s'.bcount) : Balanced w s' := by
  refine ⟨brackets.sum balanced.sum ?_, by rw [still]; exact balanced.batch⟩
  have changed := weigh_update Filler.bytes s.filler i f
  rw [Pool.inflight, Pool.inflight, moved, still]
  omega

theorem Balanced.writer {j : Fin s2} {f : Writer P} (balanced : Balanced w s)
    (moved : s'.writer = update s.writer j f) (still : s'.filler = s.filler)
    (room : f.hand.length ≤ w)
    (brackets : Brackets (s.writer j).bytes f.bytes s.bcount s'.bcount) : Balanced w s' := by
  refine ⟨brackets.sum balanced.sum ?_, fun k => ?_⟩
  · have changed := weigh_update Writer.bytes s.writer j f
    rw [Pool.inflight, Pool.inflight, moved, still]
    omega
  · rw [moved]
    by_cases same : k = j
    · subst same
      simpa using room
    · simpa [same] using balanced.batch k

theorem Balanced.writer_bytes_le (balanced : Balanced w s) (j : Fin s2) :
    (s.writer j).bytes ≤ w * zoneSize :=
  (s.writer j).bytes_le.trans (Nat.mul_le_mul_right _ (balanced.batch j))

theorem Balanced.inflight_le (balanced : Balanced w s) :
    s.inflight ≤ s1 * zoneSize + s2 * (w * zoneSize) := by
  have fillers := weigh_le (fun i => (s.filler i).bytes) fun i => (s.filler i).bytes_le
  have writers := weigh_le (fun j => (s.writer j).bytes) balanced.writer_bytes_le
  rw [Fintype.card_fin] at fillers writers
  exact Nat.add_le_add fillers writers

/-- What a Stage-1 thread outside its bracket can see. -/
theorem Balanced.filler_sees (balanced : Balanced w s) {i : Fin s1}
    (outside : (s.filler i).bytes = 0) :
    s.bcount ≤ (s1 - 1) * zoneSize + s2 * (w * zoneSize) := by
  have fillers := weigh_le_of_zero (fun i => (s.filler i).bytes) (fun i => (s.filler i).bytes_le)
    outside
  have writers := weigh_le (fun j => (s.writer j).bytes) balanced.writer_bytes_le
  rw [Fintype.card_fin] at fillers writers
  rw [balanced.sum]
  exact (Nat.mod_le _ _).trans (Nat.add_le_add fillers writers)

/-- What a Stage-2 thread outside its bracket can see. -/
theorem Balanced.writer_sees (balanced : Balanced w s) {j : Fin s2}
    (outside : (s.writer j).bytes = 0) :
    s.bcount ≤ s1 * zoneSize + (s2 - 1) * (w * zoneSize) := by
  have fillers := weigh_le (fun i => (s.filler i).bytes) fun i => (s.filler i).bytes_le
  have writers := weigh_le_of_zero (fun j => (s.writer j).bytes) balanced.writer_bytes_le outside
  rw [Fintype.card_fin] at fillers writers
  rw [balanced.sum]
  exact (Nat.mod_le _ _).trans (Nat.add_le_add fillers writers)

variable {base : P → Nat}

theorem writerStep_brackets {j : Fin s2} {f : Writer P} (width : 1 ≤ w)
    (room : f.hand.length ≤ w) (stepped : s.writerStep base w j f = some s') :
    ∃ f', s'.writer = update s.writer j f' ∧ s'.filler = s.filler ∧ f'.hand.length ≤ w ∧
      Brackets f.bytes f'.bytes s.bcount s'.bcount := by
  cases f with
  | idle =>
    cases queue : s.q2 with
    | nil => simp [Pool.writerStep, queue] at stepped
    | cons p rest =>
      simp only [Pool.writerStep, queue, Option.some.injEq] at stepped
      subst stepped
      exact ⟨_, rfl, rfl, width, .keep rfl⟩
  | popped p =>
    simp only [Pool.writerStep] at stepped
    split at stepped
    · cases stepped
      exact ⟨_, rfl, rfl, width, .keep rfl⟩
    · cases stepped
      exact ⟨_, rfl, rfl, width, .keep rfl⟩
  | rePush p | parked =>
    cases stepped
    exact ⟨_, rfl, rfl, Nat.zero_le _, .keep rfl⟩
  | collect first rest =>
    simp only [Pool.writerStep] at stepped
    split at stepped
    · next more =>
      split at stepped
      · cases stepped
        refine ⟨_, rfl, rfl, ?_, .keep rfl⟩
        simpa [Writer.hand] using Nat.succ_le_of_lt more
      · cases stepped
        exact ⟨_, rfl, rfl, room, .keep rfl⟩
    · cases stepped
      exact ⟨_, rfl, rfl, room, .keep rfl⟩
  | check first rest next =>
    simp only [Pool.writerStep] at stepped
    split at stepped
    · cases stepped
      exact ⟨_, rfl, rfl, room, .keep rfl⟩
    · cases stepped
      exact ⟨_, rfl, rfl, room, .keep rfl⟩
  | putBack first rest next =>
    cases stepped
    refine ⟨_, rfl, rfl, ?_, .keep rfl⟩
    simp only [Writer.hand, List.length_append, List.length_cons, List.length_nil] at room ⊢
    omega
  | detach first rest =>
    cases stepped
    exact ⟨_, rfl, rfl, room, .add rfl⟩
  | writing first rest =>
    cases stepped
    exact ⟨_, rfl, rfl, Nat.zero_le _, .sub rfl⟩
  | exited => simp [Pool.writerStep] at stepped

variable [DecidableEq P] {label : PoolLabel P s1 s2}

theorem fillerStep_brackets {i : Fin s1} {ok : Bool} {f : Filler P}
    (stepped : s.fillerStep i ok f = some s') :
    ∃ f', s'.filler = update s.filler i f' ∧ s'.writer = s.writer ∧
      Brackets f.bytes f'.bytes s.bcount s'.bcount := by
  cases f with
  | idle =>
    cases queue : s.q1 with
    | nil => simp [Pool.fillerStep, queue] at stepped
    | cons p rest =>
      simp only [Pool.fillerStep, queue, Option.some.injEq] at stepped
      subst stepped
      exact ⟨_, rfl, rfl, .keep rfl⟩
  | popped p =>
    simp only [Pool.fillerStep] at stepped
    split at stepped
    · cases stepped
      exact ⟨_, rfl, rfl, .keep rfl⟩
    · split at stepped
      · cases stepped
        exact ⟨_, rfl, rfl, .keep rfl⟩
      · cases stepped
        exact ⟨_, rfl, rfl, .keep rfl⟩
  | forward p | rePush p | parked =>
    cases stepped
    exact ⟨_, rfl, rfl, .keep rfl⟩
  | guardWait p =>
    cases stepped
    exact ⟨_, rfl, rfl, .add rfl⟩
  | reading p =>
    cases stepped
    exact ⟨_, rfl, rfl, .sub rfl⟩
  | finish p read =>
    cases read with
    | true =>
      cases stepped
      exact ⟨_, rfl, rfl, .keep rfl⟩
    | false =>
      cases stepped
      exact ⟨_, rfl, rfl, .keep rfl⟩
  | exited => simp [Pool.fillerStep] at stepped

/-- Every step keeps `bcount` the sum of what is bracketed. -/
theorem Balanced.step (width : 1 ≤ w) (balanced : Balanced w s)
    (stepped : s.step base w label = some s') : Balanced w s' := by
  cases label with
  | push1 p | merge p =>
    cases stepped
    exact { balanced with }
  | push2 p =>
    simp only [Pool.step] at stepped
    split at stepped
    · cases stepped
      exact { balanced with }
    · contradiction
  | filler i ok =>
    obtain ⟨f, moved, still, brackets⟩ := fillerStep_brackets stepped
    exact balanced.filler moved still brackets
  | writer j =>
    obtain ⟨f, moved, still, room, brackets⟩ :=
      writerStep_brackets width (balanced.batch j) stepped
    exact balanced.writer moved still room brackets
  | exit1 i =>
    simp only [Pool.step] at stepped
    split at stepped
    · next idle =>
      cases stepped
      exact balanced.filler rfl rfl (.keep (by rw [idle]; rfl))
    · contradiction
  | exit2 j =>
    simp only [Pool.step] at stepped
    split at stepped
    · next idle _ =>
      cases stepped
      exact balanced.writer rfl rfl (Nat.zero_le _) (.keep (by rw [idle]; rfl))
    · contradiction

end Accounting

/-! ## Full pages -/

section FullPages

variable {P : Type} {s1 s2 : Nat}

/-- Only full pages are on their way to the device. -/
structure FullAhead (s : Pool P s1 s2) : Prop where
  queue : ∀ p ∈ s.q2, s.full p = true
  hands : ∀ j, ∀ p ∈ (s.writer j).hand, s.full p = true
  forward : ∀ i p, s.filler i = .forward p → s.full p = true

variable {base : P → Nat} {w : Nat} {s s' : Pool P s1 s2}

/-- Pages fill up and stay full; the position of at most one thread of each stage changes. -/
theorem FullAhead.keep (ahead : FullAhead s) {full : P → Bool}
    (grows : ∀ p, s.full p = true → full p = true) : FullAhead { s with full := full } :=
  ⟨fun p member => grows p (ahead.queue p member),
    fun j p member => grows p (ahead.hands j p member),
    fun i p here => grows p (ahead.forward i p here)⟩

theorem FullAhead.setFiller (ahead : FullAhead s) (i : Fin s1) (f : Filler P)
    (forward : ∀ p, f = .forward p → s.full p = true) : FullAhead (s.setFiller i f) := by
  refine { ahead with forward := fun k p here => ?_ }
  by_cases same : k = i
  · subst same
    exact forward p (by simpa [Pool.setFiller] using here)
  · exact ahead.forward k p (by simpa [Pool.setFiller, same] using here)

theorem FullAhead.setWriter (ahead : FullAhead s) (j : Fin s2) (f : Writer P)
    (hand : ∀ p ∈ f.hand, s.full p = true) : FullAhead (s.setWriter j f) := by
  refine { ahead with hands := fun k p member => ?_ }
  by_cases same : k = j
  · subst same
    exact hand p (by simpa [Pool.setWriter] using member)
  · exact ahead.hands k p (by simpa [Pool.setWriter, same] using member)

theorem FullAhead.requeue (ahead : FullAhead s) {q1 q2 pushed1 pushed2 filled written repushed : List P}
    {bcount : Nat} (queue : ∀ p ∈ q2, s.full p = true) :
    FullAhead { s with q1, q2, bcount, pushed1, pushed2, filled, written, repushed } :=
  { ahead with queue := queue }

theorem full_of_push (ahead : FullAhead s) {p : P} (full : s.full p = true) :
    ∀ q ∈ s.q2 ++ [p], s.full q = true := by
  intro q member
  rcases List.mem_append.mp member with old | new
  · exact ahead.queue q old
  · exact List.mem_singleton.mp new ▸ full

theorem FullAhead.writerStep (ahead : FullAhead s) {j : Fin s2} {f : Writer P}
    (here : s.writer j = f) (stepped : s.writerStep base w j f = some s') : FullAhead s' := by
  -- Only full pages come to Queue-2, so every hand has only such pages and may put them back.
  have hand : ∀ p ∈ f.hand, s.full p = true := fun p member => ahead.hands j p (here ▸ member)
  cases f with
  | idle =>
    cases queue : s.q2 with
    | nil => simp [Pool.writerStep, queue] at stepped
    | cons p rest =>
      simp only [Pool.writerStep, queue, Option.some.injEq] at stepped
      subst stepped
      have waiting : ∀ q ∈ p :: rest, s.full q = true := queue ▸ ahead.queue
      exact (ahead.setWriter j (.popped p) fun q member =>
        List.mem_singleton.mp member ▸ waiting p List.mem_cons_self).requeue
          fun q member => waiting q (List.mem_cons_of_mem _ member)
  | popped p =>
    simp only [Pool.writerStep] at stepped
    split at stepped
    · cases stepped
      exact ahead.setWriter j _ hand
    · cases stepped
      exact ahead.setWriter j _ hand
  | rePush p =>
    cases stepped
    exact (ahead.setWriter j .parked (by simp [Writer.hand])).requeue
      (full_of_push ahead (hand p List.mem_cons_self))
  | parked =>
    cases stepped
    exact ahead.setWriter j .idle (by simp [Writer.hand])
  | collect first rest =>
    simp only [Pool.writerStep] at stepped
    split at stepped
    · split at stepped
      · next next queue popped =>
        cases stepped
        have waiting : s.q2 = next :: queue := popIfBase_eq popped
        have full : ∀ q ∈ next :: queue, s.full q = true := waiting ▸ ahead.queue
        refine (ahead.setWriter j (.check first rest next) fun q member => ?_).requeue
          fun q member => full q (List.mem_cons_of_mem _ member)
        rcases List.mem_append.mp member with old | new
        · exact hand q old
        · exact List.mem_singleton.mp new ▸ full next List.mem_cons_self
      · cases stepped
        exact ahead.setWriter j _ hand
    · cases stepped
      exact ahead.setWriter j _ hand
  | check first rest next =>
    simp only [Pool.writerStep] at stepped
    split at stepped
    · cases stepped
      exact ahead.setWriter j _ fun q member => hand q (by simpa [Writer.hand] using member)
    · cases stepped
      exact ahead.setWriter j _ hand
  | putBack first rest next =>
    cases stepped
    refine (ahead.setWriter j (.detach first rest) fun q member => ?_).requeue
      (full_of_push ahead (hand next ?_))
    · exact hand q (List.mem_append_left _ member)
    · exact List.mem_append_right _ List.mem_cons_self
  | detach first rest =>
    cases stepped
    exact (ahead.setWriter j (.writing first rest) hand).requeue ahead.queue
  | writing first rest =>
    cases stepped
    exact (ahead.setWriter j .idle (by simp [Writer.hand])).requeue ahead.queue
  | exited => simp [Pool.writerStep] at stepped

variable [DecidableEq P] {label : PoolLabel P s1 s2}

theorem full_update {full : P → Bool} (p : P) :
    ∀ q, full q = true → update full p true q = true := by
  intro q before
  by_cases same : q = p <;> simp [same, before]

theorem FullAhead.fillerStep (ahead : FullAhead s) {i : Fin s1} {ok : Bool} {f : Filler P}
    (here : s.filler i = f) (stepped : s.fillerStep i ok f = some s') : FullAhead s' := by
  cases f with
  | idle =>
    cases queue : s.q1 with
    | nil => simp [Pool.fillerStep, queue] at stepped
    | cons p rest =>
      simp only [Pool.fillerStep, queue, Option.some.injEq] at stepped
      subst stepped
      exact (ahead.setFiller i (.popped p) (by simp)).requeue ahead.queue
  | popped p =>
    simp only [Pool.fillerStep] at stepped
    split at stepped
    · next full =>
      cases stepped
      exact ahead.setFiller i _ fun q same => Filler.forward.inj same ▸ full
    · split at stepped
      · cases stepped
        exact ahead.setFiller i _ (by simp)
      · cases stepped
        exact ahead.setFiller i _ (by simp)
  | forward p =>
    cases stepped
    exact (ahead.setFiller i .idle (by simp)).requeue
      (full_of_push ahead (ahead.forward i p here))
  | rePush p =>
    cases stepped
    exact (ahead.setFiller i .parked (by simp)).requeue ahead.queue
  | parked =>
    cases stepped
    exact ahead.setFiller i .idle (by simp)
  | guardWait p =>
    cases stepped
    exact (ahead.setFiller i (.reading p) (by simp)).requeue ahead.queue
  | reading p =>
    cases stepped
    exact (ahead.setFiller i (.finish p ok) (by simp)).requeue ahead.queue
  -- A page whose holes were read is full before it is forwarded; after a failed read it is dropped.
  | finish p read =>
    cases read with
    | true =>
      cases stepped
      have grown : FullAhead { s with full := update s.full p true } :=
        ahead.keep (full_update p)
      exact grown.setFiller i (.forward p) fun q same => by
        rw [← Filler.forward.inj same]
        exact Function.update_self _ _ _
    | false =>
      cases stepped
      exact (ahead.setFiller i .idle (by simp)).requeue ahead.queue
  | exited => simp [Pool.fillerStep] at stepped

theorem FullAhead.step (ahead : FullAhead s) (stepped : s.step base w label = some s') :
    FullAhead s' := by
  cases label with
  | push1 p =>
    cases stepped
    exact ahead.requeue ahead.queue
  | push2 p =>
    simp only [Pool.step] at stepped
    split at stepped
    · next full =>
      cases stepped
      exact ahead.requeue (full_of_push ahead full)
    · contradiction
  | merge p =>
    cases stepped
    exact ahead.keep (full_update p)
  | filler i ok => exact ahead.fillerStep rfl stepped
  | writer j => exact ahead.writerStep rfl stepped
  | exit1 i =>
    simp only [Pool.step] at stepped
    split at stepped
    · cases stepped
      exact ahead.setFiller i .exited (by simp)
    · contradiction
  | exit2 j =>
    simp only [Pool.step] at stepped
    split at stepped
    · cases stepped
      exact ahead.setWriter j .exited (by simp [Writer.hand])
    · contradiction

end FullPages

/-! ## One thread in each stage -/

section Pair

variable {P : Type}

/-- Stage-1 gives its page back, or waits after it did. -/
def Filler.deferring : Filler P → Bool
  | .rePush _ | .parked => true
  | _ => false

/-- Stage-2 gives a page back, or waits after it did. -/
def Writer.deferring : Writer P → Bool
  | .rePush _ | .parked | .putBack _ _ _ => true
  | _ => false

/-- Each queue is served in the order of the pushes, and nothing is pushed twice. -/
structure Served (s : Pool P 1 1) : Prop where
  first : s.filled ++ (s.filler 0).hand ++ s.q1 = s.pushed1
  second : s.written ++ (s.writer 0).hand ++ s.q2 = s.pushed2
  once : s.repushed = []
  calm1 : (s.filler 0).deferring = false
  calm2 : (s.writer 0).deferring = false

variable {base : P → Nat} {s s' : Pool P 1 1}

theorem Balanced.not_busy (balanced : Balanced pwritevMaxIov s) : s.busy = false := by
  have bound := balanced.inflight_le
  have sum := balanced.sum
  have below := Nat.mod_le s.inflight word
  rw [Pool.busy, decide_eq_false_iff_not]
  simp only [zoneSize, pwritevMaxIov, bcountBusyThreshold] at *
  omega

theorem Served.writerStep {f : Writer P} (served : Served s) (ahead : FullAhead s)
    (quiet : s.busy = false) (here : s.writer 0 = f)
    (stepped : s.writerStep base pwritevMaxIov 0 f = some s') : Served s' := by
  obtain ⟨first, second, once, calm1, calm2⟩ := served
  have full : ∀ p ∈ f.hand, s.full p = true := fun p member => ahead.hands 0 p (here ▸ member)
  rw [here] at second calm2
  cases f with
  | idle =>
    cases queue : s.q2 with
    | nil => simp [Pool.writerStep, queue] at stepped
    | cons p rest =>
      simp only [Pool.writerStep, queue, Option.some.injEq] at stepped
      subst stepped
      rw [queue] at second
      exact ⟨first, by simpa [Pool.setWriter, Writer.hand] using second, once, calm1, rfl⟩
  | popped p =>
    simp only [Pool.writerStep, quiet] at stepped
    cases stepped
    exact ⟨first, by simpa [Pool.setWriter, Writer.hand] using second, once, calm1, rfl⟩
  | rePush p | parked | putBack first rest next => simp [Writer.deferring] at calm2
  | collect head rest =>
    have stays : Served (s.setWriter 0 (.detach head rest)) :=
      ⟨first, by simpa [Pool.setWriter, Writer.hand] using second, once, calm1, rfl⟩
    simp only [Pool.writerStep] at stepped
    split at stepped
    · split at stepped
      · next next queue popped =>
        cases stepped
        rw [popIfBase_eq popped] at second
        exact ⟨first, by simpa [Pool.setWriter, Writer.hand] using second, once, calm1, rfl⟩
      · cases stepped
        exact stays
    · cases stepped
      exact stays
  | check head rest next =>
    -- Pages on Queue-2 are full, so the check never fails.
    have covered : s.full next = true := full next (by simp [Writer.hand])
    simp only [Pool.writerStep, covered, if_true] at stepped
    cases stepped
    exact ⟨first, by simpa [Pool.setWriter, Writer.hand] using second, once, calm1, rfl⟩
  | detach head rest =>
    cases stepped
    exact ⟨first, by simpa [Pool.setWriter, Writer.hand] using second, once, calm1, rfl⟩
  | writing head rest =>
    cases stepped
    exact ⟨first, by simpa [Pool.setWriter, Writer.hand] using second, once, calm1, rfl⟩
  | exited => simp [Pool.writerStep] at stepped

variable [DecidableEq P] {label : PoolLabel P 1 1}

theorem Served.fillerStep {ok : Bool} {f : Filler P} (served : Served s) (quiet : s.busy = false)
    (here : s.filler 0 = f) (stepped : s.fillerStep 0 ok f = some s') : Served s' := by
  obtain ⟨first, second, once, calm1, calm2⟩ := served
  rw [here] at first calm1
  cases f with
  | idle =>
    cases queue : s.q1 with
    | nil => simp [Pool.fillerStep, queue] at stepped
    | cons p rest =>
      simp only [Pool.fillerStep, queue, Option.some.injEq] at stepped
      subst stepped
      rw [queue] at first
      exact ⟨by simpa [Pool.setFiller, Filler.hand] using first, second, once, rfl, calm2⟩
  | popped p =>
    simp only [Pool.fillerStep, quiet] at stepped
    split at stepped
    · cases stepped
      exact ⟨by simpa [Pool.setFiller, Filler.hand] using first, second, once, rfl, calm2⟩
    · cases stepped
      exact ⟨by simpa [Pool.setFiller, Filler.hand] using first, second, once, rfl, calm2⟩
  | forward p =>
    cases stepped
    refine ⟨by simpa [Pool.setFiller, Filler.hand] using first, ?_, once, rfl, calm2⟩
    have longer := congrArg (· ++ [p]) second
    simpa [Pool.setFiller] using longer
  | rePush p | parked => simp [Filler.deferring] at calm1
  | guardWait p | reading p =>
    cases stepped
    exact ⟨by simpa [Pool.setFiller, Filler.hand] using first, second, once, rfl, calm2⟩
  | finish p read =>
    cases read with
    | true =>
      cases stepped
      exact ⟨by simpa [Pool.setFiller, Filler.hand] using first, second, once, rfl, calm2⟩
    | false =>
      cases stepped
      exact ⟨by simpa [Pool.setFiller, Filler.hand] using first, second, once, rfl, calm2⟩
  | exited => simp [Pool.fillerStep] at stepped

theorem Served.step (served : Served s) (balanced : Balanced pwritevMaxIov s)
    (ahead : FullAhead s) (stepped : s.step base pwritevMaxIov label = some s') : Served s' := by
  have quiet := balanced.not_busy
  obtain ⟨first, second, once, calm1, calm2⟩ := id served
  cases label with
  | push1 p =>
    cases stepped
    have longer := congrArg (· ++ [p]) first
    exact ⟨by simpa using longer, second, once, calm1, calm2⟩
  | push2 p =>
    simp only [Pool.step] at stepped
    split at stepped
    · cases stepped
      have longer := congrArg (· ++ [p]) second
      exact ⟨first, by simpa using longer, once, calm1, calm2⟩
    · contradiction
  | merge p =>
    cases stepped
    exact { served with }
  | filler i ok =>
    obtain rfl := Subsingleton.elim i 0
    exact served.fillerStep quiet rfl stepped
  | writer j =>
    obtain rfl := Subsingleton.elim j 0
    exact served.writerStep ahead quiet rfl stepped
  | exit1 i =>
    obtain rfl := Subsingleton.elim i 0
    simp only [Pool.step] at stepped
    split at stepped
    · next idle =>
      cases stepped
      rw [idle] at first
      exact ⟨by simpa [Pool.setFiller, Filler.hand] using first, second, once, rfl, calm2⟩
    · contradiction
  | exit2 j =>
    obtain rfl := Subsingleton.elim j 0
    simp only [Pool.step] at stepped
    split at stepped
    · next idle _ =>
      cases stepped
      rw [idle] at second
      exact ⟨first, by simpa [Pool.setWriter, Writer.hand] using second, once, calm1, rfl⟩
    · contradiction

end Pair

/-! ## Every pool -/

section Runs

variable {P : Type} [DecidableEq P] {base : P → Nat}

theorem balanced_of_run {s1 s2 w : Nat} (width : 1 ≤ w) {s : Pool P s1 s2}
    (run : Run (Pool.step base w) (fun _ _ => True) (Pool.init P s1 s2) s) : Balanced w s :=
  run.invariant (Balanced w) (.init w) fun balanced _ stepped => balanced.step width stepped

theorem ahead_of_run {s1 s2 w : Nat} {s : Pool P s1 s2}
    (run : Run (Pool.step base w) (fun _ _ => True) (Pool.init P s1 s2) s) : FullAhead s :=
  run.invariant FullAhead ⟨by simp [Pool.init], by simp [Pool.init, Writer.hand],
    by simp [Pool.init]⟩ fun ahead _ stepped => ahead.step stepped

/-- What as many threads as a `uint32_t` counts can have in flight, with batches that `pwritev`
takes, fits 64 bits. -/
theorem ceiling_lt_word {s1 s2 w : Nat} (fillers : s1 < 2 ^ 32) (writers : s2 < 2 ^ 32)
    (width : w ≤ 1024) : s1 * zoneSize + s2 * (w * zoneSize) < word := by
  have batch : s2 * (w * zoneSize) ≤ 2 ^ 32 * (1024 * zoneSize) :=
    Nat.mul_le_mul writers.le (Nat.mul_le_mul width le_rfl)
  simp only [zoneSize, word] at *
  omega

theorem served_of_run {s : Pool P 1 1}
    (run : Run (Pool.step base pwritevMaxIov) (fun _ _ => True) (Pool.init P 1 1) s) : Served s := by
  refine run.invariant_along (fun s => Balanced pwritevMaxIov s ∧ FullAhead s) Served
    (fun earlier => ⟨balanced_of_run (by decide) earlier, ahead_of_run earlier⟩)
    ⟨rfl, rfl, rfl, rfl, rfl⟩ fun known served _ stepped => served.step known.1 known.2 stepped

/-- In every run of every pool, `bcount` is the sum of what is bracketed as far as 64 bits hold
it, which they do for every thread count the code can be built with and every batch width that
`pwritev` takes; no `bcount_sub` takes more than is there, and a thread that evaluates
`ssd_is_busy` sees at most what the other threads can have in flight.  With one thread in each
stage and batches of eight the check is false in every state, no page goes back to the tail of a
queue, and each queue is served in the order of the pushes. -/
theorem busy_branches_dead (base : P → Nat) :
    (∀ s1 s2 w, 1 ≤ s1 → 1 ≤ s2 → 1 ≤ w → ∀ s : Pool P s1 s2,
      Run (Pool.step base w) (fun _ _ => True) (Pool.init P s1 s2) s →
      s.bcount = s.inflight % word ∧
      (s.inflight < word → s.bcount = s.inflight ∧ (∀ i, (s.filler i).bytes ≤ s.bcount) ∧
        ∀ j, (s.writer j).bytes ≤ s.bcount) ∧
      (s1 < 2 ^ 32 → s2 < 2 ^ 32 → w ≤ 1024 → s.inflight < word) ∧
      s.inflight ≤ s1 * zoneSize + s2 * (w * zoneSize) ∧
      (∀ i p, s.filler i = .popped p →
        s.bcount ≤ (s1 - 1) * zoneSize + s2 * (w * zoneSize)) ∧
      ∀ j p, s.writer j = .popped p →
        s.bcount ≤ s1 * zoneSize + (s2 - 1) * (w * zoneSize)) ∧
    ∀ s : Pool P 1 1,
      Run (Pool.step base pwritevMaxIov) (fun _ _ => True) (Pool.init P 1 1) s →
      s.bcount = s.inflight ∧ s.busy = false ∧ s.repushed = [] ∧
      (∀ p, s.filler 0 ≠ .rePush p ∧ s.writer 0 ≠ .rePush p ∧
        ∀ first rest, s.writer 0 ≠ .putBack first rest p) ∧
      s.filled ++ (s.filler 0).hand ++ s.q1 = s.pushed1 ∧
      s.written ++ (s.writer 0).hand ++ s.q2 = s.pushed2 := by
  constructor
  · intro s1 s2 w _ _ width s run
    have balanced := balanced_of_run width run
    refine ⟨balanced.sum, fun small => ?_,
      fun fillers writers narrow =>
        lt_of_le_of_lt balanced.inflight_le (ceiling_lt_word fillers writers narrow),
      balanced.inflight_le, fun i p here => ?_, fun j p here => ?_⟩
    · have exact_ : s.bcount = s.inflight := balanced.sum.trans (Nat.mod_eq_of_lt small)
      rw [exact_]
      exact ⟨rfl, s.filler_le_inflight, s.writer_le_inflight⟩
    · exact balanced.filler_sees (by rw [here]; rfl)
    · exact balanced.writer_sees (by rw [here]; rfl)
  · intro s run
    have balanced := balanced_of_run (by decide) run
    obtain ⟨first, second, once, calm1, calm2⟩ := served_of_run run
    have bound := balanced.inflight_le
    refine ⟨balanced.sum.trans (Nat.mod_eq_of_lt ?_), balanced.not_busy, once, fun p => ?_, first,
      second⟩
    · simp only [zoneSize, pwritevMaxIov, word] at *
      omega
    · refine ⟨fun here => ?_, fun here => ?_, fun head rest here => ?_⟩
      · simp [here, Filler.deferring] at calm1
      · simp [here, Writer.deferring] at calm2
      · simp [here, Writer.deferring] at calm2

end Runs

/-- A page is pushed, popped and read for: one zone is in flight. -/
theorem busy_branches_dead_of_read :
    ∃ s : Pool Nat 1 1, s.bcount = zoneSize ∧ s.filler 0 = .reading 7 ∧ s.busy = false ∧
      s.filled ++ (s.filler 0).hand ++ s.q1 = s.pushed1 := by
  obtain ⟨s, run, bcount, here⟩ := Run.exists_of_follow (Pool.init Nat 1 1) (fun _ _ => true)
    [.push1 7, .filler 0 true, .filler 0 true, .filler 0 true]
    (fun _ _ _ => trivial) (fun s => s.bcount = zoneSize ∧ s.filler 0 = .reading 7)
    (show (Run.follow _ (Pool.step id pwritevMaxIov) _ _).any _ = true by decide +kernel)
  obtain ⟨-, quiet, -, -, order, -⟩ := (busy_branches_dead id).2 s run
  exact ⟨s, bcount, here, quiet, order⟩

end NoxDB

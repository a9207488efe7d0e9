import NoxDB.Engine.InFlight

/-! # The engine's flusher is a pool

Seen from its queues and its counter, the engine is a pool with one thread in each stage and
batches of eight: every move of the engine is no step or one step of the pool (`Mirrors.move`).
So what holds of every run of that pool holds of the engine.
-/

namespace NoxDB

open Function (update)
open Library.Runs

variable {n : Nat}

/-- The position of Stage-1 in the pool. -/
def Stage1.filler : Stage1 → Filler PageId
  | .idle | .dropDec => .idle
  | .popped p => .popped p
  | .forwardEnter p | .forwardPush p | .fillEnter p | .fillPush p => .forward p
  | .busyPush p => .rePush p
  | .waitNotBusy => .parked
  | .guardWait p _ | .readStart p _ => .guardWait p
  | .reading p _ | .readFailed p => .reading p
  | .finish p ok => .finish p ok
  | .exited => .exited

/-- A position with a batch. -/
def Writer.ofBatch (position : PageId → List PageId → Writer PageId) : List PageId → Writer PageId
  | [] => .idle
  | first :: rest => position first rest

/-- The position of Stage-2 in the pool. -/
def Stage2.writer : Stage2 → Writer PageId
  | .popped p => .popped p
  | .busyPush p => .rePush p
  | .waitNotBusy => .parked
  | .collect batch => .ofBatch .collect batch
  | .check batch next => .ofBatch (fun first rest => .check first rest next) batch
  | .pushBack batch next => .ofBatch (fun first rest => .putBack first rest next) batch
  | .detaching done todo => .ofBatch .detach (done ++ todo)
  | .tagging done p todo => .ofBatch .detach (done ++ p :: todo)
  | .writeStart batch => .ofBatch .detach batch
  | .writing batch _ | .written batch _ => .ofBatch .writing batch
  | .idle | .latch _ _ | .freeing _ | .leaving _ _ _ | .decrement _ => .idle
  | .exited => .exited

/-- A batch holds at least the page it was started with. -/
def Stage2.Started : Stage2 → Prop
  | .collect batch | .check batch _ | .pushBack batch _ | .writeStart batch | .writing batch _
  | .written batch _ => batch ≠ []
  | .detaching done todo => done ++ todo ≠ []
  | _ => True

/-- The pool shows the queues, the counter, the full pages and the two stages of the engine. -/
structure Mirrors (s : Engine n) (c : Pool PageId 1 1) : Prop where
  q1 : c.q1 = s.q1
  q2 : c.q2 = s.q2
  bcount : c.bcount = s.bcount
  full : ∀ p, c.full p = (decide (p < s.created) && scrapPageIsFull (s.pages p))
  filler : c.filler 0 = s.s1.filler
  writer : c.writer 0 = s.s2.writer
  started : s.s2.Started

/-- Before and after a move of the engine, with no step of the pool or with one. -/
def Trails (base : PageId → Nat) (s' : Engine n) (c : Pool PageId 1 1) : Prop :=
  Mirrors s' c ∨ ∃ label c', c.step base pwritevMaxIov label = some c' ∧ Mirrors s' c'

variable {cfg : Config} {s s' : Engine n} {label : Label n} {base : PageId → Nat}
  {c : Pool PageId 1 1}

/-- A page changes without becoming full or ceasing to be. -/
theorem full_repage {p : PageId} {page : ScrapPage Cell}
    (same : scrapPageIsFull page = scrapPageIsFull (s.pages p)) (q : PageId) :
    scrapPageIsFull (update s.pages p page q) = scrapPageIsFull (s.pages q) := by
  by_cases isP : q = p
  · subst isP
    simpa using same
  · simp [isP]

theorem enqueueOne_full {page : ScrapPage Cell} {enqueue : Option Enqueue} {before : ScrapPage Cell}
    (chosen : (page, enqueue) = Engine.enqueueOne before) :
    scrapPageIsFull page = scrapPageIsFull before := by
  have same : scrapPageIsFull (Engine.enqueueOne before).1 = scrapPageIsFull before := by
    simp only [Engine.enqueueOne, enqueueFull, enqueuePartial]
    split_ifs <;> rfl
  rw [← chosen] at same
  exact same

namespace Mirrors

/-- The foreground changes nothing the pool shows. -/
theorem still (mirrors : Mirrors s c) (q1 : s'.q1 = s.q1) (q2 : s'.q2 = s.q2)
    (bcount : s'.bcount = s.bcount) (s1 : s'.s1.filler = s.s1.filler)
    (s2 : s'.s2 = s.s2) (created : s'.created = s.created)
    (full : ∀ p, scrapPageIsFull (s'.pages p) = scrapPageIsFull (s.pages p)) : Mirrors s' c :=
  ⟨mirrors.q1.trans q1.symm, mirrors.q2.trans q2.symm, mirrors.bcount.trans bcount.symm,
    fun p => by rw [mirrors.full p, created, full p], mirrors.filler.trans s1.symm,
    by rw [s2]; exact mirrors.writer, by rw [s2]; exact mirrors.started⟩

theorem full_of_created (mirrors : Mirrors s c) {p : PageId} (current : p < s.created) :
    c.full p = scrapPageIsFull (s.pages p) := by
  simp [mirrors.full p, current]

/-- A push of a full page to Queue-2. -/
theorem push2 (mirrors : Mirrors s c) {p : PageId} (current : p < s.created)
    (full : scrapPageIsFull (s.pages p) = true) :
    c.step base pwritevMaxIov (.push2 p) =
        some { c with q2 := c.q2 ++ [p], pushed2 := c.pushed2 ++ [p] } ∧
      Mirrors { s with q2 := s.q2 ++ [p] }
        { c with q2 := c.q2 ++ [p], pushed2 := c.pushed2 ++ [p] } := by
  refine ⟨?_, { mirrors with q2 := by rw [mirrors.q2] }⟩
  simp only [Pool.step, mirrors.full_of_created current, full, if_true]

theorem fg (mirrors : Mirrors s c) (sound : Sound cfg s) (move : FgMove cfg s label s') :
    Trails base s' c := by
  cases move with
  | @alloc t call done address zone position free absent unused =>
    refine .inl { mirrors with full := fun p => ?_ }
    rw [mirrors.full p]
    rcases Nat.lt_trichotomy p s.created with old | rfl | later
    · have differs : p ≠ s.created := Nat.ne_of_lt old
      simp [old, Nat.lt_succ_of_lt old, differs]
    · simp [scrapPageIsFull, scrapPageAlloc]
    · simp [Nat.not_lt.mpr later.le, Nat.not_lt.mpr (Nat.succ_le_of_lt later)]
  | @decide t call done p created position decision decided =>
    have way := Decided.of_eq decided
    have more := sound.ready.progress t call done _ position
    have stays := way.isFull (sound.ready.wellFormed p) (Call.chunk_pos more)
      (call.intra_add_chunk_le done)
    have current : p < s.created := by
      have role : s.custody.role (.fg t) = .holds p created := role_at position
      have rights := sound.owned.rights (.fg t)
      rw [role] at rights
      exact rights.1.1
    -- The page was full before, or it becomes full and the pool has a step for it.
    by_cases same : scrapPageIsFull decision.page = scrapPageIsFull (s.pages p)
    · exact .inl (mirrors.still rfl rfl rfl rfl rfl rfl (full_repage same))
    · have now : scrapPageIsFull decision.page = true := by
        cases before : scrapPageIsFull (s.pages p) with
        | true => exact stays before
        | false => simpa [before] using same
      refine .inr ⟨.merge p, _, rfl, { mirrors with full := fun q => ?_ }⟩
      by_cases isP : q = p
      · subst isP
        simp [current, now]
      · simp [isP, mirrors.full q]
  | partialPush position =>
    exact .inr ⟨.push1 _, _, rfl, { mirrors with q1 := by rw [mirrors.q1] }⟩
  | @fullPush t call done p after position =>
    have role : roleOf s.fg s.closer (.fg t) = .pushing p .fullPush := role_at position
    have full := sound.ready.pushed (.fg t) p .fullPush role rfl
    have current : p < s.created := by
      have rights := sound.owned.rights (.fg t)
      rw [show s.custody.role (.fg t) = .pushing p .fullPush from role] at rights
      exact rights.1.1
    obtain ⟨stepped, after⟩ := mirrors.push2 current full
    exact .inr ⟨_, _, stepped, { after with }⟩
  | _ => exact .inl { mirrors with }

theorem closer (mirrors : Mirrors s c) (sound : Sound cfg s) (move : CloserMove s label s') :
    Trails base s' c := by
  cases move with
  | sweepLock position alive free page enqueue chosen =>
    exact .inl (mirrors.still rfl rfl rfl rfl rfl rfl (full_repage (enqueueOne_full chosen)))
  | partialPush position =>
    exact .inr ⟨.push1 _, _, rfl, { mirrors with q1 := by rw [mirrors.q1] }⟩
  | @fullPush err bucket p position =>
    have role : roleOf s.fg s.closer .closer = .pushing p .fullPush := closer_role_at position
    have full := sound.ready.pushed .closer p .fullPush role rfl
    have current : p < s.created := by
      have rights := sound.owned.rights .closer
      rw [show s.custody.role .closer = .pushing p .fullPush from role] at rights
      exact rights.1.1
    obtain ⟨stepped, after⟩ := @push2 _ s base c mirrors p current full
    exact .inr ⟨_, _, stepped, { after with }⟩
  | _ => exact .inl { mirrors with }

/-- The counter is far below `2^64`. -/
theorem bcount_small (sound : Sound cfg s) : s.bcount ≤ 9 * zoneSize := by
  have first := s.s1.inflight_le
  have second := s.s2.inflight_le
  have batch := sound.load.batch
  have bcount := sound.load.bcount
  simp only [zoneSize, pwritevMaxIov] at *
  omega

theorem add_eq (sound : Sound cfg s) {bytes : Nat} (small : bytes ≤ 8 * zoneSize) :
    bcountAdd s.bcount bytes = s.bcount + bytes := by
  have bound := bcount_small sound
  rw [bcountAdd, Nat.mod_eq_of_lt]
  simp only [zoneSize, word] at *
  omega

theorem sub_eq (sound : Sound cfg s) {bytes : Nat} (there : bytes ≤ s.bcount) :
    bcountSub s.bcount bytes = s.bcount - bytes := by
  have bound := bcount_small sound
  have small : bytes < word := by
    simp only [zoneSize, word] at *
    omega
  have shifted : s.bcount + (word - bytes) = s.bcount - bytes + word := by omega
  rw [bcountSub, Nat.mod_eq_of_lt small, shifted, Nat.add_mod_right, Nat.mod_eq_of_lt]
  simp only [zoneSize, word] at *
  omega

/-- The pool's Stage-1 takes its step. -/
theorem fillerSteps (mirrors : Mirrors s c) (f : Filler PageId) (position : s.s1.filler = f)
    (ok : Bool) {c' : Pool PageId 1 1} (stepped : c.fillerStep 0 ok f = some c')
    (after : Mirrors s' c') : Trails base s' c := by
  refine .inr ⟨.filler 0 ok, c', ?_, after⟩
  rw [Pool.step, mirrors.filler, position]
  exact stepped

theorem stage1 (mirrors : Mirrors s c) (sound : Sound cfg s) (move : Stage1Move cfg s label s') :
    Trails base s' c := by
  have calm := sound.load.calm1
  have idle := sound.load.not_busy
  have quiet : c.busy = false := by
    simpa [Pool.busy, Engine.ssdIsBusy, mirrors.bcount] using idle
  cases move with
  -- The branches for a busy device, and those after them, are dead.
  | inspectBusy position free holes busy => simp [idle] at busy
  | busyPush position | wake position => simp [position, Stage1.deferred] at calm
  | @pop p rest position queue =>
    refine mirrors.fillerSteps .idle (by rw [position]; rfl) true
      (show _ = some { c.setFiller 0 (.popped p) with q1 := rest } by
        simp [Pool.fillerStep, mirrors.q1, queue]) { mirrors with q1 := rfl, filler := rfl }
  | exit position queue shut =>
    refine .inr ⟨.exit1 0, c.setFiller 0 .exited, ?_, { mirrors with filler := rfl }⟩
    simp [Pool.step, mirrors.filler, position, Stage1.filler]
  | @inspectFull p position free full =>
    have covered : c.full p = true := by
      rw [mirrors.full_of_created (sound.hand_lt_created (by simp [position, Stage1.pages])), full]
    exact mirrors.fillerSteps (.popped p) (by rw [position]; rfl) true
      (show _ = some (c.setFiller 0 (.forward p)) by simp [Pool.fillerStep, covered])
      { mirrors with filler := rfl }
  | @inspectHoles p position free holes _ =>
    have covered : c.full p = false := by
      rw [mirrors.full_of_created (sound.hand_lt_created (by simp [position, Stage1.pages])), holes]
    exact mirrors.fillerSteps (.popped p) (by rw [position]; rfl) true
      (show _ = some (c.setFiller 0 (.guardWait p)) by simp [Pool.fillerStep, covered, quiet])
      { mirrors with filler := rfl }
  -- A page the hole-fill completed and one that was full already go the same way.
  | @forwardPush p position | @fillPush p position =>
    exact mirrors.fillerSteps (.forward p) (by rw [position]; rfl) true rfl
      { mirrors with q2 := by simp [mirrors.q2], filler := rfl }
  -- The counter is a 64-bit word, which the bytes in flight stay below.
  | @readStart p holes position bcount charged =>
    refine mirrors.fillerSteps (.guardWait p) (by rw [position]; rfl) true rfl
      { mirrors with bcount := ?_, filler := rfl }
    rw [charged, mirrors.bcount]
    exact add_eq sound (by simp only [zoneSize]; omega)
  | @readEnd p position bcount discharged =>
    refine mirrors.fillerSteps (.reading p) (by rw [position]; rfl) true rfl
      { mirrors with bcount := ?_, filler := rfl }
    rw [discharged, mirrors.bcount]
    exact sub_eq sound (by simp [sound.load.bcount, position, Stage1.inflight])
  | @readFailed p position bcount discharged =>
    refine mirrors.fillerSteps (.reading p) (by rw [position]; rfl) false rfl
      { mirrors with bcount := ?_, filler := rfl }
    rw [discharged, mirrors.bcount]
    exact sub_eq sound (by simp [sound.load.bcount, position, Stage1.inflight])
  -- The flag of the pool is the page's own fullness, which only this step of Stage-1 changes.
  | @fill p position free page filled =>
    have current : p < s.created := sound.hand_lt_created (by simp [position, Stage1.pages])
    have whole : scrapPageIsFull page = true := filled ▸ scrapPageApplyHoles_full s.scratch
    refine mirrors.fillerSteps (.finish p true) (by rw [position]; rfl) true rfl
      { mirrors with full := fun q => ?_, filler := rfl }
    by_cases isP : q = p
    · subst isP
      simpa [current, scrapPageIsFull] using whole
    · simp [isP, mirrors.full q]
  | @drop p position free =>
    have same : Mirrors { s with pages := update s.pages p { s.pages p with inQueue := false } } c :=
      mirrors.still rfl rfl rfl rfl rfl rfl (full_repage rfl)
    exact mirrors.fillerSteps (.finish p false) (by rw [position]; rfl) true rfl { same with filler := rfl }
  -- Steps between two positions that the pool does not tell apart.
  | forwardEnter position | guardPass position | dropDec position | fillEnter position
  | preadOk position | preadFail position =>
    exact .inl { mirrors with filler := by rw [mirrors.filler, position]; rfl }

/-- The pool's Stage-2 takes its step. -/
theorem writerSteps (mirrors : Mirrors s c) (f : Writer PageId) (position : s.s2.writer = f)
    {c' : Pool PageId 1 1} (stepped : c.writerStep base pwritevMaxIov 0 f = some c')
    (after : Mirrors s' c') : Trails base s' c := by
  refine .inr ⟨.writer 0, c', ?_, after⟩
  rw [Pool.step, mirrors.writer, position]
  exact stepped

/-- Stage-2 moves on, with the same full pages. -/
theorem restage (mirrors : Mirrors s c) {s2 : Stage2} {f : Writer PageId} (here : s2.writer = f)
    (started : s2.Started) : Mirrors { s with s2 := s2 } (c.setWriter 0 f) :=
  { mirrors with writer := here.symm, started := started }

theorem stage2 (mirrors : Mirrors s c) (sound : Sound cfg s) (agrees : Agrees base s)
    (move : Stage2Move s label s') : Trails base s' c := by
  have calm := sound.load.calm2
  have settled := sound.ready.settled
  have idle := sound.load.not_busy
  have quiet : c.busy = false := by
    simpa [Pool.busy, Engine.ssdIsBusy, mirrors.bcount] using idle
  have started := mirrors.started
  have ours : ∀ p ∈ s.s2.pages ++ s.q2, p < s.created := fun p member =>
    (sound.owned.live p (outgoing_subset_pipe s (List.mem_append_left _ member))).1
  cases move with
  -- Dead as above; and a page in the wrong state is never in Queue-2.
  | poppedBusy position busy => simp [idle] at busy
  | busyPush position | wake position => simp [position, Stage2.deferred] at calm
  | checkNotReady position free notReady => simp [sound.ready.ready_of_check position] at notReady
  | pushBack position => simp [position, Stage2.returning] at settled
  | @pop p rest position queue =>
    exact mirrors.writerSteps .idle (by rw [position]; rfl)
      (show _ = some { c.setWriter 0 (.popped p) with q2 := rest } by
        simp [Pool.writerStep, mirrors.q2, queue])
      { mirrors with q2 := rfl, writer := rfl, started := trivial }
  | exit position queue shut =>
    refine .inr ⟨.exit2 0, c.setWriter 0 .exited, ?_, mirrors.restage rfl trivial⟩
    simp [Pool.step, mirrors.writer, mirrors.q2, queue, position, Stage2.writer]
  | @poppedGo p position _ =>
    exact mirrors.writerSteps (.popped p) (by rw [position]; rfl)
      (show _ = some (c.setWriter 0 (.collect p [])) by simp [Pool.writerStep, quiet])
      (mirrors.restage rfl (List.cons_ne_nil _ _))
  -- The batch of the engine is the pool's first page and the others after it.
  | @collectTake batch next rest position room queue wanted =>
    rw [position] at started ours
    cases batch with
    | nil => exact absurd rfl started
    | cons first more =>
      have known : base next = (s.pages next).base := (agrees next (ours next (by simp [queue])))
      have head : base first = (s.pages first).base :=
        agrees first (ours first (by simp [Stage2.pages, Stage2.kept]))
      have follows : base next = wantFor base first (more.length + 1) := by
        rw [known, wanted, wantFor, head]
        rfl
      refine mirrors.writerSteps (.collect first more) (by rw [position]; rfl)
        (show _ = some { c.setWriter 0 (.check first more next) with q2 := rest } from ?_)
        { mirrors with q2 := rfl, writer := rfl, started := List.cons_ne_nil _ _ }
      simp only [Pool.writerStep]
      rw [if_pos (show more.length + 1 < pwritevMaxIov from room), mirrors.q2, queue, popIfBase,
        if_pos follows]
  | @collectStop batch position stop =>
    rw [position] at started ours
    cases batch with
    | nil => exact absurd rfl started
    | cons first more =>
      have head : base first = (s.pages first).base :=
        agrees first (ours first (by simp [Stage2.pages, Stage2.kept]))
      refine mirrors.writerSteps (.collect first more) (by rw [position]; rfl)
        (show _ = some (c.setWriter 0 (.detach first more)) from ?_)
        (mirrors.restage rfl (List.cons_ne_nil _ _))
      simp only [Pool.writerStep, mirrors.q2]
      split
      · next room =>
        cases queue : s.q2 with
        | nil => rfl
        | cons next rest =>
          have known : base next = (s.pages next).base := agrees next (ours next (by simp [queue]))
          have differs : base next ≠ wantFor base first (more.length + 1) := by
            rw [known, wantFor, head]
            exact stop room next rest queue
          simp only [popIfBase, if_neg differs]
      · rfl
  | @checkReady batch next position free ready =>
    rw [position] at started ours
    cases batch with
    | nil => exact absurd rfl started
    | cons first more =>
      have covered : c.full next = true := by
        rw [mirrors.full_of_created (ours next (by simp [Stage2.pages, Stage2.kept]))]
        exact sound.ready.filled next (by simp [Engine.outgoing, position, Stage2.pages, Stage2.kept])
      exact mirrors.writerSteps (.check first more next) (by rw [position]; rfl)
        (show _ = some (c.setWriter 0 (.collect first (more ++ [next]))) by
          simp [Pool.writerStep, covered]) (mirrors.restage rfl (List.cons_ne_nil _ _))
  | @writeStart batch position bcount charged =>
    rw [position] at started
    have bound := sound.load.batch
    rw [position] at bound
    cases batch with
    | nil => exact absurd rfl started
    | cons first more =>
      refine mirrors.writerSteps (.detach first more) (by rw [position]; rfl) rfl
        { mirrors with bcount := ?_, writer := rfl, started := List.cons_ne_nil _ _ }
      have small : more.length + 1 ≤ pwritevMaxIov := by
        simpa [Stage2.pages, Stage2.tagged, Stage2.unlinked, Stage2.kept] using bound
      rw [charged, mirrors.bcount]
      refine add_eq sound ?_
      simp only [zoneSize, pwritevMaxIov] at *
      omega
  | @written batch ok position bcount discharged =>
    rw [position] at started
    cases batch with
    | nil => exact absurd rfl started
    | cons first more =>
      refine mirrors.writerSteps (.writing first more) (by rw [position]; rfl) rfl
        { mirrors with bcount := ?_, writer := rfl, started := trivial }
      rw [discharged, mirrors.bcount]
      exact sub_eq sound (by simp [sound.load.bcount, position, Stage2.inflight])
  -- Detaching is one position of the pool: the two locks of a page do not show in it.
  | @unlink done p todo position linked free =>
    have same : Mirrors { s with pages := update s.pages p { s.pages p with detached := true } } c :=
      mirrors.still rfl rfl rfl rfl rfl rfl (full_repage rfl)
    exact .inl { same with writer := by rw [mirrors.writer, position]; rfl, started := trivial }
  | @tag done p todo position free =>
    have same : Mirrors
        { s with
          pages := update s.pages p
            { s.pages p with hdr := { (s.pages p).hdr with tag := .flushing }, inQueue := false } } c :=
      mirrors.still rfl rfl rfl rfl rfl rfl (full_repage rfl)
    refine .inl { same with writer := ?_, started := ?_ }
    · rw [mirrors.writer, position]
      simp [Stage2.writer]
    · simp [Stage2.Started]
  | @detachDone done position =>
    rw [position] at started
    refine .inl { mirrors with writer := ?_, started := by simpa [Stage2.Started] using started }
    rw [mirrors.writer, position]
    simp [Stage2.writer]
  | unlinkSkip position =>
    exact .inl { mirrors with writer := by rw [mirrors.writer, position]; rfl, started := trivial }
  -- One transfer of the gather write; the pool charges the whole of it at once.
  | @pwritev batch st result position fits after outcome =>
    rw [position] at started
    cases after with
    | again next =>
      exact .inl { mirrors with writer := by rw [mirrors.writer, position]; rfl, started := started }
    | done total =>
      exact .inl { mirrors with writer := by rw [mirrors.writer, position]; rfl, started := started }
  | latch position | freeDone position | free position | leave position | decrement position =>
    exact .inl { mirrors with writer := by rw [mirrors.writer, position]; rfl, started := trivial }

theorem move (mirrors : Mirrors s c) (sound : Sound cfg s) (agrees : Agrees base s)
    (move : Move cfg s label s') : Trails base s' c := by
  cases move with
  | fg move => exact mirrors.fg sound move
  | stage1 move => exact mirrors.stage1 sound move
  | stage2 move => exact mirrors.stage2 sound agrees move
  | closer move => exact mirrors.closer sound move

theorem init (cfg : Config) (file : File) (scratch : Nat → UInt8) :
    Mirrors (Engine.init n cfg file scratch) (Pool.init PageId 1 1) where
  q1 := rfl
  q2 := rfl
  bcount := rfl
  full := fun p => by simp [Pool.init, Engine.init]
  filler := rfl
  writer := rfl
  started := trivial

end Mirrors

end NoxDB

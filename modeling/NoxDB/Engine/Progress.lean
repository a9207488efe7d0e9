import NoxDB.Engine.Mutexes
import NoxDB.Engine.Orphans

/-! # No deadlock

Every wait of the engine has somebody who will end it.  A thread that wants a page lock
waits for a holder that never waits; a thread that wants a shard lock waits for one that
wants a page lock; Stage-1 waits in the guard for pages that Stage-2 has or will pop, and
Stage-2 waits for nobody but lock holders.  As long as no read fails every live page is on
its way through the queues, so that a parked writer and a draining `nox_close` wait for the
stages only.
-/

namespace NoxDB

open Library.Runs
open Library.Monitors
open Library.Counting

variable {n : Nat} {cfg : Config} {file : File} {scratch : Nat → UInt8} {s s' : Engine n}
  {label : Label n}

/-- The step is the engine's, not a new call of the application. -/
def Label.isOwn : Label n → Bool
  | .call _ _ | .close => false
  | _ => true

/-- A step of the engine without a fault. -/
def Advances (label : Label n) : Prop := label.isOwn = true ∧ label.faultless = true

/-- Thread `t` has such a step. -/
def CanStep (cfg : Config) (s : Engine n) (t : Thread n) : Prop :=
  ∃ label s', label.mover = t ∧ s.step cfg label = some s' ∧ Advances label

theorem CanStep.of_isSome {t : Thread n} (label : Label n) (mover : label.mover = t)
    (advances : Advances label) (enabled : (s.step cfg label).isSome = true) : CanStep cfg s t := by
  obtain ⟨s', stepped⟩ := Option.isSome_iff_exists.mp enabled
  exact ⟨label, s', mover, stepped, advances⟩

/-- The thread has nothing to do, or waits for another thread to exit. -/
def Resting (s : Engine n) : Thread n → Prop
  | .fg t => s.fg t = .idle
  | .stage1 => s.s1 = .exited
  | .stage2 => s.s2 = .exited
  | .closer => s.closer = .running ∨ (∃ err, s.closer = .returned err) ∨ s.closer = .fault ∨
      (∃ err, s.closer = .join1 err ∧ s.s1 ≠ .exited) ∨
      ∃ err, s.closer = .join2 err ∧ s.s2 ≠ .exited

/-- What can keep a thread from making a step. -/
inductive Standing (cfg : Config) (s : Engine n) (t : Thread n) : Prop where
  | locked (mutex : Mutex) (wanted : mutex ∈ s.wanted t) (busy : s.busy mutex = true)
  | waiting (waits : (s.waitsOn t).isSome = true) (unready : s.isReady t = false)
  | resting (resting : Resting s t)
  | able (able : CanStep cfg s t)

theorem wanted_of_resting {t : Thread n} (resting : Resting s t) : s.wanted t = [] := by
  cases t with
  | fg t =>
    have idle : s.fg t = .idle := resting
    simp [Engine.wanted, idle]
  | stage1 =>
    have exited : s.s1 = .exited := resting
    simp [Engine.wanted, exited, Engine.stage1Wanted]
  | stage2 =>
    have exited : s.s2 = .exited := resting
    simp [Engine.wanted, exited, Engine.stage2Wanted]
  | closer =>
    rcases resting with position | ⟨err, position⟩ | position | ⟨err, position, -⟩ | ⟨err, position, -⟩ <;>
      simp [Engine.wanted, position, Engine.closerWanted]

/-- An address that no live page has. -/
theorem exists_unused (s : Engine n) :
    ∃ address, ∀ q < s.created, s.freed q = false → s.addr q ≠ address := by
  have finite : ∀ k : Nat, ∃ bound, ∀ q < k, s.addr q < bound := by
    intro k
    induction k with
    | zero => exact ⟨0, by simp⟩
    | succ k inductionHypothesis =>
      obtain ⟨bound, below⟩ := inductionHypothesis
      refine ⟨max bound (s.addr k + 1), fun q smaller => ?_⟩
      rcases Nat.lt_succ_iff_lt_or_eq.mp smaller with before | rfl
      · exact lt_of_lt_of_le (below q before) (le_max_left _ _)
      · exact lt_of_lt_of_le (Nat.lt_succ_self _) (le_max_right _ _)
  obtain ⟨bound, below⟩ := finite s.created
  exact ⟨bound, fun q current _ => Nat.ne_of_lt (below q current)⟩

theorem standing_fg (s : Engine n) (t : Fin n) : Standing cfg s (.fg t) := by
  cases position : s.fg t with
  | idle => exact .resting position
  | direct call =>
    refine .able (.of_isSome (.pwrite t (.ok 0)) rfl ⟨rfl, rfl⟩ ?_)
    simp [Engine.step, Engine.pwriteStep, position, IoResult.Fits, IoResult.landed]
  | scrap call done pc =>
    have wanted : s.wanted (.fg t) = s.fgWanted (call.base done) pc := by
      simp [Engine.wanted, position]
    have goes : (s.chunkStep cfg t call done pc).isSome = true → Standing cfg s (.fg t) :=
      fun enabled => .able (.of_isSome (.fg t) rfl ⟨rfl, rfl⟩ (by
        simpa [Engine.step, Engine.fgStep, position] using enabled))
    -- The shard lock is the only one a thread may find taken by another step.
    have sharded : s.shard (Engine.shardOf (call.base done)) ≠ none →
        .shard (Engine.shardOf (call.base done)) ∈ s.fgWanted (call.base done) pc →
        Standing cfg s (.fg t) := fun taken member =>
      .locked _ (wanted ▸ member) (by simpa [Engine.busy, Option.isSome_iff_ne_none] using taken)
    cases pc with
    | gate =>
      apply goes
      simp only [Engine.chunkStep]
      split <;> rfl
    | parked =>
      by_cases released : s.watermark.armed = false ∨ s.watermark.live ≤ s.watermark.low
      · exact goes (by simp [Engine.chunkStep, released])
      · refine .waiting (by simp [Engine.waitsOn, position, Fg.isParked]) ?_
        simpa [Engine.isReady] using released
    | lookup =>
      by_cases free : s.shard (Engine.shardOf (call.base done)) = none
      · cases found : s.find (call.base done) with
        | some p => exact goes (by simp [Engine.chunkStep, free, found])
        | none =>
          obtain ⟨address, unused⟩ := exists_unused s
          refine .able (.of_isSome (.alloc t address fun _ => 0) rfl ⟨rfl, rfl⟩ ?_)
          simpa [Engine.step, Engine.allocStep, position, free, found] using unused
      · refine sharded free ?_
        simp only [Engine.fgWanted]
        split <;> simp
    | lockPage p =>
      by_cases free : s.lock p = none
      · exact goes (by simp [Engine.chunkStep, free])
      · refine .locked (.page p) (by simp [wanted, Engine.fgWanted]) ?_
        simpa [Engine.busy, Option.isSome_iff_ne_none] using free
    | held p created => exact goes rfl
    | enqueue p e after =>
      apply goes
      cases e <;> rfl
    | unlock p after =>
      apply goes
      cases after <;> rfl
    | detach p =>
      by_cases free : s.shard (Engine.shardOf (call.base done)) = none
      · exact goes (by simp [Engine.chunkStep, free])
      · exact sharded free (by simp [Engine.fgWanted])

theorem locked_of_page {t : Thread n} {p : PageId} (wanted : .page p ∈ s.wanted t)
    (taken : s.lock p ≠ none) : Standing cfg s t :=
  .locked _ wanted (by simpa [Engine.busy, Option.isSome_iff_ne_none] using taken)

theorem standing_stage1 (s : Engine n) : Standing cfg s .stage1 := by
  have goes : (s.stage1Step cfg).isSome = true → Standing cfg s .stage1 := fun enabled =>
    .able (.of_isSome .stage1 rfl ⟨rfl, rfl⟩ enabled)
  cases position : s.s1 with
  | idle =>
    cases queue : s.q1 with
    | cons p rest => exact goes (by simp [Engine.stage1Step, position, queue])
    | nil =>
      cases shut : s.shut1 with
      | true => exact goes (by simp [Engine.stage1Step, position, queue, shut])
      | false =>
        exact .waiting (by simp [Engine.waitsOn, position])
          (by simp [Engine.isReady, position, queue, shut])
  | popped p =>
    by_cases free : s.lock p = none
    · exact goes (by simp [Engine.stage1Step, position, free])
    · exact locked_of_page (by simp [Engine.wanted, position, Engine.stage1Wanted]) free
  | guardWait p holes =>
    by_cases quiet : s.wb (wbSlot (s.pages p).base) = 0
    · exact goes (by simp [Engine.stage1Step, position, quiet])
    · exact .waiting (by simp [Engine.waitsOn, position])
        (by simpa [Engine.isReady, position] using quiet)
  | reading p runs =>
    cases runs with
    | nil => exact goes (by simp [Engine.stage1Step, position])
    | cons run runs =>
      refine .able (.of_isSome (.pread (.count 0)) rfl ⟨rfl, rfl⟩ ?_)
      simp [Engine.step, Engine.preadStep, position, readRun]
  | finish p ok =>
    by_cases free : s.lock p = none
    · exact goes (by simp [Engine.stage1Step, position, free])
    · exact locked_of_page (by cases ok <;> simp [Engine.wanted, position, Engine.stage1Wanted]) free
  | exited => exact .resting position
  | forwardEnter | forwardPush | busyPush | waitNotBusy | readStart | readFailed | dropDec
  | fillEnter | fillPush => exact goes (by simp [Engine.stage1Step, position])

theorem standing_stage2 (s : Engine n) : Standing cfg s .stage2 := by
  have goes : s.stage2Step.isSome = true → Standing cfg s .stage2 := fun enabled =>
    .able (.of_isSome .stage2 rfl ⟨rfl, rfl⟩ enabled)
  cases position : s.s2 with
  | idle =>
    cases queue : s.q2 with
    | cons p rest => exact goes (by simp [Engine.stage2Step, position, queue])
    | nil =>
      cases shut : s.shut2 with
      | true => exact goes (by simp [Engine.stage2Step, position, queue, shut])
      | false =>
        exact .waiting (by simp [Engine.waitsOn, position])
          (by simp [Engine.isReady, queue, shut])
  | popped p =>
    apply goes
    simp only [Engine.stage2Step, position]
    split <;> rfl
  | collect batch =>
    apply goes
    simp only [Engine.stage2Step, position]
    split
    · split
      · split <;> rfl
      · rfl
    · rfl
  | check batch p =>
    by_cases free : s.lock p = none
    · apply goes
      simp only [Engine.stage2Step, position, free, if_true]
      split <;> rfl
    · exact locked_of_page (by simp [Engine.wanted, position, Engine.stage2Wanted]) free
  -- The shard is wanted only for a page that is still linked.
  | detaching done todo =>
    cases todo with
    | nil => exact goes (by simp [Engine.stage2Step, position])
    | cons p todo =>
      by_cases may : (s.pages p).detached = true ∨ s.shard (Engine.shardOf (s.pages p).base) = none
      · exact goes (by simp [Engine.stage2Step, position, may])
      · obtain ⟨linked, taken⟩ := not_or.mp may
        refine .locked (.shard (Engine.shardOf (s.pages p).base))
          (by simp [Engine.wanted, position, Engine.stage2Wanted, linked]) ?_
        simpa [Engine.busy, Option.isSome_iff_ne_none] using taken
  | tagging done p todo =>
    by_cases free : s.lock p = none
    · exact goes (by simp [Engine.stage2Step, position, free])
    · exact locked_of_page (by simp [Engine.wanted, position, Engine.stage2Wanted]) free
  -- A device that answers with zero bytes is enough for a step.
  | writing batch st =>
    refine .able (.of_isSome (.pwritev (.ok 0)) rfl ⟨rfl, rfl⟩ ?_)
    simp [Engine.step, Engine.pwritevStep, position, IoResult.Fits, IoResult.landed]
  | freeing batch =>
    apply goes
    cases batch <;> simp [Engine.stage2Step, position]
  | exited => exact .resting position
  | busyPush | waitNotBusy | pushBack | writeStart | written | latch | leaving | decrement =>
    exact goes (by simp [Engine.stage2Step, position])

theorem standing_closer (s : Engine n) : Standing cfg s .closer := by
  have goes : s.closerStep.isSome = true → Standing cfg s .closer := fun enabled =>
    .able (.of_isSome .closer rfl ⟨rfl, rfl⟩ enabled)
  -- Both drains wait for the same counter.
  have drains : (s.waitsOn .closer).isSome = true → (s.pending = 0 → s.closerStep.isSome = true) →
      Standing cfg s .closer := fun waits drained => by
    by_cases empty : s.pending = 0
    · exact goes (drained empty)
    · exact .waiting waits (by simpa [Engine.isReady] using empty)
  cases position : s.closer with
  | running => exact .resting (.inl position)
  | returned err => exact .resting (.inr (.inl ⟨err, position⟩))
  | fault => exact .resting (.inr (.inr (.inl position)))
  | firstDrain =>
    exact drains (by simp [Engine.waitsOn, position]) fun empty => by
      simp [Engine.closerStep, position, empty]
  | secondDrain err =>
    exact drains (by simp [Engine.waitsOn, position]) fun empty => by
      simp [Engine.closerStep, position, empty]
  | sweep err bucket cur =>
    cases cur with
    | none =>
      apply goes
      simp only [Engine.closerStep, position]
      split <;> rfl
    | some p =>
      by_cases gone : s.freed p = true
      · exact goes (by simp [Engine.closerStep, position, gone])
      · by_cases free : s.lock p = none
        · exact goes (by simp [Engine.closerStep, position, gone, free])
        · exact locked_of_page (by simp [Engine.wanted, position, Engine.closerWanted]) free
  | sweepEnqueue err bucket p e =>
    apply goes
    cases e <;> simp [Engine.closerStep, position, Engine.enqueueStep]
  | sweepNext err bucket p =>
    apply goes
    simp only [Engine.closerStep, position]
    split <;> rfl
  -- A join waits for a thread and not for a condition variable, so it counts as resting.
  | join1 err =>
    by_cases gone : s.s1 = .exited
    · exact goes (by simp [Engine.closerStep, position, gone])
    · exact .resting (.inr (.inr (.inr (.inl ⟨err, position, gone⟩))))
  | join2 err =>
    by_cases gone : s.s2 = .exited
    · exact goes (by simp [Engine.closerStep, position, gone])
    · exact .resting (.inr (.inr (.inr (.inr ⟨err, position, gone⟩))))
  | closeFd err =>
    refine .able (.of_isSome (.closeFd true) rfl ⟨rfl, rfl⟩ ?_)
    simp [Engine.step, Engine.closeFdStep, position]
  | disarm | sweepUnlock | stopping | shutdown1 | shutdown2 | lastCheck | destroy =>
    exact goes (by simp [Engine.closerStep, position])

theorem standing (s : Engine n) (t : Thread n) : Standing cfg s t := by
  cases t with
  | fg t => exact standing_fg s t
  | stage1 => exact standing_stage1 s
  | stage2 => exact standing_stage2 s
  | closer => exact standing_closer s

/-! ## Runs without a fault -/

/-- What holds as long as no read fails: nothing strands, so that nothing is left for the sweep. -/
structure Calm (s : Engine n) : Prop where
  unfailed : ∀ p, s.s1 ≠ .readFailed p ∧ s.s1 ≠ .finish p false
  present : ∀ p, ¬ s.custody.Stranded p
  emptied : 3 ≤ s.closer.phase → ∀ p, ¬ s.custody.Alive p
  walk : s.closer.walked = none ∧ s.closer ≠ .fault
  shut1 : 7 ≤ s.closer.phase → s.shut1 = true
  shut2 : 9 ≤ s.closer.phase → s.shut2 = true

namespace Calm

theorem init (cfg : Config) (file : File) (scratch : Nat → UInt8) :
    Calm (Engine.init n cfg file scratch) where
  unfailed := by simp [Engine.init]
  present := fun p stranded => by
    simpa [Custody.Alive, Engine.custody, Engine.init] using stranded.alive
  emptied := by simp [Engine.init, Closer.phase]
  walk := by simp [Engine.init, Closer.walked]
  shut1 := by simp [Engine.init, Closer.phase]
  shut2 := by simp [Engine.init, Closer.phase]

theorem unfailed_step (calm : Calm s) (faultless : label.faultless = true)
    (move : Move cfg s label s') : ∀ p, s'.s1 ≠ .readFailed p ∧ s'.s1 ≠ .finish p false := by
  have same : s'.s1 = s.s1 → ∀ p, s'.s1 ≠ .readFailed p ∧ s'.s1 ≠ .finish p false :=
    fun equal => equal ▸ calm.unfailed
  cases move with
  | fg move => cases move <;> exact same rfl
  | stage1 move =>
    cases move with
    | readFailed position => exact absurd position (calm.unfailed _).1
    | preadFail => simp [Label.faultless] at faultless
    | _ => simp
  | stage2 move => cases move <;> exact same rfl
  | closer move => cases move <;> exact same rfl

theorem present_step (calm : Calm s) (sound : Sound cfg s) (move : Move cfg s label s') :
    ∀ p, ¬ s'.custody.Stranded p := by
  intro p stranded
  rcases stranded_step sound move stranded with before | ⟨-, dropping⟩
  · exact calm.present p before
  · cases position : s.s1 with
    | finish q ok =>
      cases ok with
      | true => simp [position, Stage1.dropping] at dropping
      | false => exact (calm.unfailed q).2 position
    | _ => simp [position, Stage1.dropping] at dropping

/-- When `pending` is zero and no writer is left, no page is alive. -/
theorem dead_of_drained (calm : Calm s) (sound : Sound cfg s) (quiet : Quiet s)
    (drained : s.pending = 0) : ∀ p, ¬ s.custody.Alive p := fun p alive =>
  calm.present p
    { alive
      outside := by simp [Walk.pipe_nil_of_drained sound.pending drained]
      alone := fun o => by simp [quiet.role o, Role.carried] }

theorem emptied_step (calm : Calm s) (sound : Sound cfg s) (move : Move cfg s label s')
    (late : 3 ≤ s'.closer.phase) : ∀ p, ¬ s'.custody.Alive p := by
  have before : (∀ t, s.fg t = .idle) ∧ ∀ p, ¬ s.custody.Alive p := by
    by_cases already : 3 ≤ s.closer.phase
    · exact ⟨sound.phases.idle (by omega), calm.emptied already⟩
    · cases move with
      | fg move => exact absurd (show 3 ≤ s.closer.phase by cases move <;> exact late) already
      | stage1 move => exact absurd (show 3 ≤ s.closer.phase by cases move <;> exact late) already
      | stage2 move => exact absurd (show 3 ≤ s.closer.phase by cases move <;> exact late) already
      | closer move =>
        cases move with
        | firstDrain position drained =>
          have idle := sound.phases.idle (by simp [position, Closer.phase])
          exact ⟨idle, calm.dead_of_drained sound ⟨idle, by rw [position]; rfl⟩ drained⟩
        | close | disarm => simp [Closer.phase] at late
        | sweepBucket position | sweepDone position | sweepFault position | sweepLock position
        | partialInc position | partialPush position | fullInc position | fullEnter position
        | fullPush position | sweepUnlock position | sweepNextFault position | sweepNext position
        | secondDrain position | stopping position | shutdown1 position | join1 position
        | shutdown2 position | join2 position | lastCheck position | destroy position
        | closeFd position => simp [position, Closer.phase] at already
  intro p alive
  rcases old_or_new move alive.1 with old | ⟨t, call, done, zone, position, -⟩
  · refine before.2 p ⟨old, Bool.eq_false_iff.mpr fun gone => ?_⟩
    exact absurd (freed_mono sound move gone) (by simpa [Engine.custody] using alive.2)
  · simp [before.1 t] at position

theorem walk_step (calm : Calm s) (sound : Sound cfg s) (move : Move cfg s label s') :
    s'.closer.walked = none ∧ s'.closer ≠ .fault := by
  have empty : 3 ≤ s.closer.phase → ∀ b, s.buckets b = [] := fun late b =>
    List.eq_nil_iff_forall_not_mem.mpr fun p linked =>
      calm.emptied late p (sound.owned.indexed b p linked).1
  have walk := calm.walk
  cases move with
  | fg move => cases move <;> exact walk
  | stage1 move => cases move <;> exact walk
  | stage2 move => cases move <;> exact walk
  | closer move =>
    cases move with
    | firstDrain position drained =>
      have idle := sound.phases.idle (by simp [position, Closer.phase])
      have dead := calm.dead_of_drained sound ⟨idle, by rw [position]; rfl⟩ drained
      have first : s.buckets 0 = [] := List.eq_nil_iff_forall_not_mem.mpr fun p linked =>
        dead p (sound.owned.indexed 0 p linked).1
      simp [Closer.walked, first]
    | sweepBucket position =>
      simp [Closer.walked, empty (by simp [position, Closer.phase])]
    | sweepFault position | sweepLock position | partialInc position | partialPush position
    | fullInc position | fullEnter position | fullPush position | sweepUnlock position
    | sweepNextFault position | sweepNext position =>
      simp [position, Closer.walked] at walk
    | _ => simp [Closer.walked]

theorem step (calm : Calm s) (sound : Sound cfg s) (faultless : label.faultless = true)
    (move : Move cfg s label s') : Calm s' := by
  refine ⟨calm.unfailed_step faultless move, calm.present_step sound move,
    calm.emptied_step sound move, calm.walk_step sound move, ?_, ?_⟩
  all_goals
    have shut1 := calm.shut1
    have shut2 := calm.shut2
    cases move with
    | fg move => cases move <;> assumption
    | stage1 move => cases move <;> assumption
    | stage2 move => cases move <;> assumption
    | closer move =>
      cases move with
      | shutdown1 | shutdown2 => simp_all [Closer.phase]
      | sweepLock position => exact absurd calm.walk.1 (by simp [position, Closer.walked])
      | close position | disarm position | firstDrain position | sweepBucket position
      | sweepDone position | sweepFault position | partialInc position | partialPush position
      | fullInc position | fullEnter position | fullPush position | sweepUnlock position
      | sweepNextFault position | sweepNext position | secondDrain position | stopping position
      | join1 position | join2 position | lastCheck position | destroy position
      | closeFd position => simp_all [Closer.phase]

end Calm

/-! ## Somebody can always move -/

/-- Some `nox_write` or `nox_close` has not returned. -/
def Unreturned (s : Engine n) : Prop :=
  (∃ t, s.fg t ≠ .idle) ∨ s.closer ≠ .running ∧ ∀ err, s.closer ≠ .returned err

/-- No thread of the engine can make a step. -/
def Stuck (cfg : Config) (s : Engine n) : Prop := ∀ t, ¬ CanStep cfg s t

namespace Stuck

theorem cases (stuck : Stuck cfg s) (t : Thread n) :
    (∃ mutex ∈ s.wanted t, s.busy mutex = true) ∨
      ((s.waitsOn t).isSome = true ∧ s.isReady t = false) ∨ Resting s t := by
  cases standing s t with
  | locked mutex wanted busy => exact .inl ⟨mutex, wanted, busy⟩
  | waiting waits unready => exact .inr (.inl ⟨waits, unready⟩)
  | resting resting => exact .inr (.inr resting)
  | able able => exact absurd able (stuck t)

/-- A thread that holds a page lock is never held up. -/
theorem unlocked (stuck : Stuck cfg s) (sound : Sound cfg s) (p : PageId) : s.lock p = none := by
  have leaf : ∀ (e : Enqueue), s.busy e.mutex = false := fun e => by cases e <;> rfl
  cases held : s.lock p with
  | none => rfl
  | some o =>
    have role : (roleOf s.fg s.closer o).held = some p := (sound.owned.locked p o).mp held
    cases o with
    | fg t =>
      rw [roleOf_fg] at role
      have cases := stuck.cases (.fg t)
      cases position : s.fg t with
      | scrap call done pc =>
        rw [position] at role
        cases pc <;> simp [Fg.role, ChunkPc.role, Role.held] at role <;>
          simp [Engine.wanted, Engine.waitsOn, Resting, position, Engine.fgWanted, Fg.isParked,
            leaf] at cases
      | _ => simp [position, Fg.role, Role.held] at role
    | closer =>
      rw [roleOf_closer] at role
      have cases := stuck.cases .closer
      cases position : s.closer <;> simp [position, Closer.role, Role.held] at role <;>
        simp [Engine.wanted, Engine.waitsOn, Resting, position, Engine.closerWanted, leaf] at cases

theorem unsharded (stuck : Stuck cfg s) (sound : Sound cfg s) (i : Nat) : s.shard i = none := by
  cases held : s.shard i with
  | none => rfl
  | some t =>
    have role := (sound.owned.sharded i t).mp held
    change Custody.gate (s.fg t).role = some i at role
    have cases := stuck.cases (.fg t)
    cases position : s.fg t with
    | scrap call done pc =>
      rw [position] at role
      cases pc <;> simp [Fg.role, ChunkPc.role, Custody.gate] at role
      simp [Engine.wanted, Engine.waitsOn, Resting, position, Engine.fgWanted, Fg.isParked,
        Engine.busy, stuck.unlocked sound] at cases
    | _ => simp [position, Fg.role, Custody.gate] at role

/-- So every thread waits for a condition, or has nothing to do. -/
theorem waits (stuck : Stuck cfg s) (sound : Sound cfg s) (t : Thread n) :
    (s.waitsOn t).isSome = true ∧ s.isReady t = false ∨ Resting s t := by
  rcases stuck.cases t with ⟨mutex, -, busy⟩ | waiting
  · cases mutex <;> simp [Engine.busy, stuck.unlocked sound, stuck.unsharded sound] at busy
  · exact waiting

theorem fg (stuck : Stuck cfg s) (sound : Sound cfg s) (t : Fin n) :
    s.fg t = .idle ∨ (s.fg t).isParked = true ∧ s.watermark.low < s.watermark.live := by
  rcases stuck.waits sound (.fg t) with ⟨waits, unready⟩ | resting
  · right
    simp only [Engine.waitsOn] at waits
    simp only [Engine.isReady, Bool.or_eq_false_iff, decide_eq_false_iff_not, Nat.not_le] at unready
    split at waits
    · next parked => exact ⟨parked, unready.2⟩
    · simp at waits
  · exact .inl resting

theorem role (stuck : Stuck cfg s) (sound : Sound cfg s) (o : Owner n) :
    s.custody.role o = .none := by
  cases o with
  | fg t =>
    change (s.fg t).role = .none
    rcases stuck.fg sound t with idle | ⟨parked, -⟩
    · simp [idle, Fg.role]
    · unfold Fg.isParked at parked
      split at parked
      · next position => simp [position, Fg.role, ChunkPc.role]
      · contradiction
  | closer =>
    change s.closer.role = .none
    have cases := stuck.waits sound .closer
    cases position : s.closer <;>
      simp [Engine.waitsOn, Resting, position, Closer.role] at cases ⊢

theorem stage2 (stuck : Stuck cfg s) (sound : Sound cfg s) :
    (s.s2 = .idle ∧ s.shut2 = false ∨ s.s2 = .exited) ∧ s.q2 = [] := by
  rcases stuck.waits sound .stage2 with ⟨waits, unready⟩ | resting
  · simp only [Engine.waitsOn] at waits
    simp only [Engine.isReady, Bool.or_eq_false_iff, Bool.not_eq_false', List.isEmpty_iff] at unready
    split at waits
    · next position => exact ⟨.inl ⟨position, unready.2⟩, unready.1⟩
    · simp at waits
  · exact ⟨.inr resting, (sound.phases.exited2 resting).2⟩

/-- Stage-1 does not wait in the guard: nobody is inside. -/
theorem stage1 (stuck : Stuck cfg s) (sound : Sound cfg s) :
    (s.s1 = .idle ∧ s.shut1 = false ∨ s.s1 = .exited) ∧ s.q1 = [] := by
  rcases stuck.waits sound .stage1 with ⟨waits, unready⟩ | resting
  · simp only [Engine.waitsOn] at waits
    split at waits
    · next position =>
      simp only [Engine.isReady, position, Bool.or_eq_false_iff, Bool.not_eq_false',
        List.isEmpty_iff] at unready
      exact ⟨.inl ⟨position, unready.2⟩, unready.1⟩
    · next p holes position =>
      obtain ⟨stage, queue⟩ := stuck.stage2 sound
      have carried : carriers Role.entered (roleOf s.fg s.closer) = [] :=
        carriers_nil fun o => by
          rw [show roleOf s.fg s.closer o = .none from stuck.role sound o]
          rfl
      have guarded : s.guarded = [] := by
        rcases stage with ⟨at_, -⟩ | at_ <;>
          simp [Engine.guarded, at_, queue, position, carried, Stage2.leaver, Stage2.pages,
            Stage2.tagged, Stage2.unlinked, Stage2.kept, Stage1.entered]
      have tally := sound.guard.tally (wbSlot (s.pages p).base)
      simp only [guarded, List.countP_nil] at tally
      simp [Engine.isReady, position, tally] at unready
    · simp at waits
  · exact ⟨.inr resting, (sound.phases.exited1 resting).2⟩

theorem drained (stuck : Stuck cfg s) (sound : Sound cfg s) : s.pending = 0 := by
  obtain ⟨stage2, q2⟩ := stuck.stage2 sound
  obtain ⟨stage1, q1⟩ := stuck.stage1 sound
  have carried : carriers Role.counted (roleOf s.fg s.closer) = [] :=
    carriers_nil fun o => by
      rw [show roleOf s.fg s.closer o = .none from stuck.role sound o]
      rfl
  rw [sound.pending]
  rcases stage1 with ⟨first, -⟩ | first <;> rcases stage2 with ⟨second, -⟩ | second <;>
    simp [Engine.outstanding, first, second, q1, q2, carried, Stage1.pages, Stage1.owing,
      Stage2.pages, Stage2.tagged, Stage2.unlinked, Stage2.kept, Stage2.owing]

/-- `nox_close` waits for nothing that has not happened. -/
theorem closer (stuck : Stuck cfg s) (sound : Sound cfg s) (calm : Calm s) :
    s.closer = .running ∨ ∃ err, s.closer = .returned err := by
  rcases stuck.waits sound .closer with ⟨-, unready⟩ | resting
  · simp [Engine.isReady, stuck.drained sound] at unready
  · rcases resting with running | returned | fault | ⟨err, position, lives⟩ | ⟨err, position, lives⟩
    · exact .inl running
    · exact .inr returned
    · exact absurd fault calm.walk.2
    · have shut := calm.shut1 (by simp [position, Closer.phase])
      rcases (stuck.stage1 sound).1 with ⟨-, opened⟩ | exited
      · simp [shut] at opened
      · exact absurd exited lives
    · have shut := calm.shut2 (by simp [position, Closer.phase])
      rcases (stuck.stage2 sound).1 with ⟨-, opened⟩ | exited
      · simp [shut] at opened
      · exact absurd exited lives

end Stuck

/-- A stuck engine has no call to return from. -/
theorem not_stuck (sound : Sound cfg s) (calm : Calm s) (level : Level 0 s)
    (unreturned : Unreturned s) : ¬ Stuck cfg s := by
  intro stuck
  have idle : ∀ t, s.fg t = .idle := by
    intro t
    rcases stuck.fg sound t with idle | ⟨-, above⟩
    · exact idle
    · -- A parked writer waits for a live page, and all live pages are on their way.
      have some_ : 0 < s.alive.length := by
        rw [Level] at level
        omega
      obtain ⟨p, member⟩ := List.exists_mem_of_length_pos some_
      exact absurd
        { alive := mem_alive.mp member
          outside := by simp [Walk.pipe_nil_of_drained sound.pending (stuck.drained sound)]
          alone := fun o => by simp [stuck.role sound o, Role.carried] : s.custody.Stranded p }
        (calm.present p)
  rcases unreturned with ⟨t, busy⟩ | ⟨started, open_⟩
  · exact busy (idle t)
  · rcases stuck.closer sound calm with running | ⟨err, returned⟩
    · exact started running
    · exact open_ err returned

/-! ## The engine with its mutexes -/

/-- An engine with every mutex free and every thread awake. -/
def Threaded.start (s : Engine n) : Threaded (Engine n) (Thread n) Mutex where
  state := s
  holder := fun _ => none
  asleep := fun _ => false

/-- A step of the engine that reports no fault. -/
def Healthy (_ : Threaded (Engine n) (Thread n) Mutex) : Action (Label n) (Thread n) → Prop
  | .act label => label.faultless = true
  | _ => True

instance (f : Threaded (Engine n) (Thread n) Mutex) (action : Action (Label n) (Thread n)) :
    Decidable (Healthy f action) :=
  match action with
  | .act label => inferInstanceAs (Decidable (label.faultless = true))
  | .acquire _ | .sleep _ | .spurious _ => inferInstanceAs (Decidable True)

/-- What the deadlock argument carries along a run. -/
structure Orderly (cfg : Config) (f : Threaded (Engine n) (Thread n) Mutex) : Prop where
  sound : Sound cfg f.state
  calm : Calm f.state
  level : Level 0 f.state
  mutexes : (monitor n cfg).Invariant Mutex.rank f

variable {f f' : Threaded (Engine n) (Thread n) Mutex}

theorem Orderly.start (cfg : Config) (file : File) (scratch : Nat → UInt8) :
    Orderly cfg (Threaded.start (Engine.init n cfg file scratch)) where
  sound := .init cfg file scratch
  calm := .init cfg file scratch
  level := .openAt cfg file scratch 0
  mutexes := by constructor <;> simp [Threaded.start]

theorem Orderly.next (orderly : Orderly cfg f) {action : Action (Label n) (Thread n)}
    (healthy : Healthy f action) (stepped : (monitor n cfg).next f action = some f') :
    Orderly cfg f' := by
  obtain ⟨sound, calm, level, mutexes⟩ := orderly
  have mutexes' := mutexes.next (monitor_lawful n cfg) sound stepped
  rcases Monitor.state_of_next stepped with same | ⟨label, rfl, moved⟩
  · exact ⟨same ▸ sound, same ▸ calm, same ▸ level, mutexes'⟩
  · have move := move_of_step moved
    exact ⟨sound.move move, calm.step sound healthy move, level.step sound move, mutexes'⟩

/-- As long as neither the allocator nor the device fails, some thread can move in every state
in which a call has not returned: it takes a mutex, makes a step, or finds its condition false
and goes to sleep.  No new call and no spurious wakeup is needed. -/
theorem deadlock_free
    (run : Run (monitor n cfg).next Healthy (Threaded.start (Engine.init n cfg file scratch)) f)
    (unreturned : Unreturned f.state) : (monitor n cfg).CanMove Advances f := by
  have orderly : Orderly cfg f := run.invariant (Orderly cfg) (.start cfg file scratch)
    fun orderly healthy stepped => orderly.next healthy stepped
  obtain ⟨sound, calm, level, mutexes⟩ := orderly
  have free := not_stuck sound calm level unreturned
  simp only [Stuck, not_forall, not_not] at free
  obtain ⟨t, label, s', -, stepped, advances⟩ := free
  refine Monitor.canMove mutexes (monitor_lawful n cfg) sound (fun t busy free => ?_) stepped advances
  have stands : Standing cfg f.state t := standing f.state t
  cases stands with
  | locked mutex wanted taken => exact absurd ((free mutex wanted).symm.trans taken) (by simp)
  | waiting waits unready => exact .inl ⟨waits, unready⟩
  | resting resting => exact absurd (wanted_of_resting resting) busy
  | able able => exact .inr able

/-- A gate for one page: the thread writes its page and queues it, and falls asleep at the gate
in its second call. -/
def parkingActions : List (Action (Label 1) (Thread 1)) :=
  [.act (.call 0 tinyCall), .acquire (.fg 0), .act (.fg 0), .acquire (.fg 0), .acquire (.fg 0),
    .act (.alloc 0 7 fun _ => 1), .act (.fg 0), .acquire (.fg 0), .act (.fg 0), .acquire (.fg 0),
    .act (.fg 0), .act (.fg 0), .act (.call 0 tinySecond), .acquire (.fg 0), .act (.fg 0),
    .acquire (.fg 0), .sleep (.fg 0)]

theorem deadlock_free_of_parked :
    ∃ f : Threaded (Engine 1) (Thread 1) Mutex,
      Run (monitor 1 .narrow).next Healthy
        (Threaded.start (Engine.init 1 .narrow emptyFile fun _ => 0)) f ∧
      f.asleep (.fg 0) = true ∧ (f.state.fg 0).isParked = true ∧
      (monitor 1 .narrow).CanMove Advances f := by
  have reached : ∃ f, Run (monitor 1 .narrow).next Healthy
      (Threaded.start (Engine.init 1 .narrow emptyFile fun _ => 0)) f ∧
      f.asleep (.fg 0) = true ∧ (f.state.fg 0).isParked = true := by
    refine Run.exists_of_follow _ (fun f action => Healthy f action) parkingActions
      (fun _ _ passed => of_decide_eq_true passed) _ ?_
    decide +kernel
  obtain ⟨f, run, asleep, parked⟩ := reached
  have unreturned : Unreturned f.state := .inl ⟨0, fun idle => by simp [idle, Fg.isParked] at parked⟩
  exact ⟨f, run, asleep, parked, deadlock_free run unreturned⟩

end NoxDB

import NoxDB.Engine.Integrity
import NoxDB.Engine.Starvation
import NoxDB.IoDirect.Gather

/-! # What `nox_close` reports

Errors of the background are latched in `io_err` and read three times on the way through
`nox_close`.  None is lost and none is made up: the result is `-1` exactly if Stage-1 got no
scratch zone, some hole read failed, some batch was given up, or the `close` of the file
descriptor failed.
-/

namespace NoxDB

open Library.Runs

variable {n : Nat}

/-! ## Stage-1 allocates its scratch zone -/

/-- An engine with what became of the scratch zone of Stage-1. -/
structure Launch (n : Nat) where
  engine : Engine n
  /-- Whether the `posix_memalign` at the start of `stage1_loop` gave a zone, once it returned. -/
  allocated : Option Bool

inductive LaunchLabel (n : Nat) where
  | scratch (ok : Bool)
  | step (label : Label n)

namespace Launch

/-- The engine as `nox_open` returns it: the Stage-1 thread may not have run yet. -/
def init (n : Nat) (cfg : Config) (file : File) (scratch : Nat → UInt8) : Launch n where
  engine := .init n cfg file scratch
  allocated := none

/-- Stage-1 serves its queue once it has a zone.  Without one it latches an error and returns. -/
def step (cfg : Config) (l : Launch n) : LaunchLabel n → Option (Launch n)
  | .scratch ok =>
    match l.allocated with
    | none =>
      if ok then some { l with allocated := some true }
      else
        some { engine := { l.engine with s1 := .exited, ioErr := true }, allocated := some false }
    | some _ => none
  | .step label =>
    if label.isStage1 = true ∧ l.allocated ≠ some true then none
    else (l.engine.step cfg label).map fun engine => { l with engine }

end Launch

/-- The ways a launched engine can go on. -/
inductive LaunchMove (cfg : Config) (l : Launch n) : LaunchLabel n → Launch n → Prop where
  | gets (waiting : l.allocated = none) :
      LaunchMove cfg l (.scratch true) { l with allocated := some true }
  | dies (waiting : l.allocated = none) :
      LaunchMove cfg l (.scratch false)
        { engine := { l.engine with s1 := .exited, ioErr := true }, allocated := some false }
  | step {label : Label n} {engine : Engine n}
      (served : label.isStage1 = true → l.allocated = some true)
      (stepped : l.engine.step cfg label = some engine) :
      LaunchMove cfg l (.step label) { l with engine }

theorem Launch.move_of_step {cfg : Config} {l l' : Launch n} {label : LaunchLabel n}
    (stepped : l.step cfg label = some l') : LaunchMove cfg l label l' := by
  cases label with
  | scratch ok =>
    simp only [Launch.step] at stepped
    split at stepped
    · next waiting =>
      cases ok <;> cases stepped
      · exact .dies waiting
      · exact .gets waiting
    · contradiction
  | step label =>
    simp only [Launch.step] at stepped
    split at stepped
    · contradiction
    · next served =>
      obtain ⟨engine, taken, rfl⟩ := Option.map_eq_some_iff.mp stepped
      refine .step (fun stage1 => ?_) taken
      by_contra without
      exact served ⟨stage1, without⟩

/-- Only Stage-1 changes where it is. -/
theorem s1_of_step {cfg : Config} {s s' : Engine n} {label : Label n}
    (other : label.isStage1 = false) (stepped : s.step cfg label = some s') : s'.s1 = s.s1 := by
  cases NoxDB.move_of_step stepped with
  | fg move => cases move <;> rfl
  | stage1 move => cases move <;> simp [Label.isStage1] at other
  | stage2 move => cases move <;> rfl
  | closer move => cases move <;> rfl

/-- Until Stage-1 has failed to get its zone a launched engine runs as one that has it, and until it
has got it as one that never will. -/
theorem Launch.runs_of_run {cfg : Config} {file : File} {scratch : Nat → UInt8} {l : Launch n}
    (run : Run (Launch.step cfg) (fun _ _ => True) (.init n cfg file scratch) l) :
    (l.allocated ≠ some false → Reachable cfg file scratch l.engine) ∧
    (l.allocated ≠ some true → (l.allocated = none → l.engine.s1 = .idle) ∧
      Run (starvedStep cfg) (fun _ _ => True) (Engine.init n cfg file scratch) l.engine) := by
  induction run with
  | refl => exact ⟨fun _ => .refl, fun _ => ⟨fun _ => rfl, .refl⟩⟩
  | @tail middle last _ _ _ stepped inductionHypothesis =>
    obtain ⟨served, starved⟩ := inductionHypothesis
    cases Launch.move_of_step stepped with
    | gets waiting => exact ⟨fun _ => served (by simp [waiting]), by simp⟩
    | dies waiting =>
      refine ⟨by simp, fun _ => ⟨by simp, ?_⟩⟩
      obtain ⟨idle, before⟩ := starved (by simp [waiting])
      have dies : starvedStep cfg middle.engine none = some _ := if_pos (idle waiting)
      exact .tail before trivial dies
    | @step label engine zone taken =>
      refine ⟨fun fine => .tail (served fine) trivial taken, fun without => ?_⟩
      have other : label.isStage1 = false :=
        Bool.eq_false_iff.mpr fun stage1 => without (zone stage1)
      obtain ⟨idle, before⟩ := starved without
      refine ⟨fun waiting => (s1_of_step other taken).trans (idle waiting), ?_⟩
      have goesOn : starvedStep cfg middle.engine (some label) = some engine := by
        rw [starvedStep, other]
        exact taken
      exact .tail before trivial goesOn

/-! ## Faults and the latch -/

/-- What went wrong so far. -/
structure Faults where
  /-- Stage-1 got no scratch zone. -/
  scratch : Bool
  /-- A `pread` of Stage-1 failed. -/
  read : Bool
  /-- `io_direct_pwritev_all` gave up on a batch of Stage-2. -/
  write : Bool
  /-- The `close` of the file descriptor failed. -/
  close : Bool
deriving DecidableEq, Repr

/-- The loop of `io_direct_pwritev_all` ends with this outcome and returns `-1`. -/
def Engine.givesUp (s : Engine n) (result : IoResult) : Bool :=
  match s.s2 with
  | .writing batch st => pwritevAfter (batch.map fun _ => zoneSize) st result == .done none
  | _ => false

def Faults.none : Faults where
  scratch := false
  read := false
  write := false
  close := false

/-- What a step of the engine adds to the record of the faults. -/
def Faults.noteStep (s : Engine n) (label : Label n) (faults : Faults) : Faults :=
  match label with
  | .pread .fail => { faults with read := true }
  | .pwritev result => { faults with write := faults.write || s.givesUp result }
  | .closeFd ok => { faults with close := !ok }
  | _ => faults

/-- The record of the faults. -/
def Faults.note (l : Launch n) (label : LaunchLabel n) (faults : Faults) : Faults :=
  match label with
  | .scratch true => faults
  | .scratch false => { faults with scratch := true }
  | .step label => faults.noteStep l.engine label

/-- Stage-1 has not latched its failure yet. -/
def Stage1.unlatched : Stage1 → Bool
  | .readFailed _ | .finish _ false => true
  | _ => false

/-- Stage-2 has not latched its failure yet. -/
def Stage2.unlatched : Stage2 → Bool
  | .written _ ok | .latch _ ok => !ok
  | _ => false

/-- What `nox_close` has read of the latch. -/
def Closer.Agrees (ioErr close : Bool) : Closer → Prop
  | .running | .disarm | .firstDrain | .fault => close = false
  | .sweep err _ _ | .sweepEnqueue err _ _ _ | .sweepUnlock err _ _ | .sweepNext err _ _
  | .secondDrain err | .stopping err | .shutdown1 err | .join1 err | .shutdown2 err | .join2 err
  | .lastCheck err => (err = true → ioErr = true) ∧ close = false
  | .destroy err | .closeFd err => err = ioErr ∧ close = false
  | .returned err => err = (ioErr || close)

/-- Every fault is latched or about to be. -/
structure Noted (s : Engine n) (faults : Faults) : Prop where
  latched : (faults.scratch || faults.read || faults.write) =
    (s.ioErr || s.s1.unlatched || s.s2.unlatched)
  verdict : s.closer.Agrees s.ioErr faults.close

/-- A stage that was joined is gone. -/
structure Joined (s : Engine n) : Prop where
  first : 8 ≤ s.closer.phase → s.s1 = .exited
  second : 10 ≤ s.closer.phase → s.s2 = .exited

variable {cfg : Config} {file : File} {scratch : Nat → UInt8} {s s' : Engine n} {label : Label n}
  {faults : Faults}

theorem Joined.move (joined : Joined s) (move : Move cfg s label s') : Joined s' := by
  obtain ⟨first, second⟩ := joined
  cases move with
  | fg move => cases move <;> exact ⟨first, second⟩
  | stage1 move =>
    have alive : s.s1 ≠ .exited := by
      intro exited
      cases move <;> simp_all
    have closer : s'.closer = s.closer := by cases move <;> rfl
    have still : s'.s2 = s.s2 := by cases move <;> rfl
    exact ⟨fun late => absurd (first (closer ▸ late)) alive, by rw [closer, still]; exact second⟩
  | stage2 move =>
    have alive : s.s2 ≠ .exited := by
      intro exited
      cases move <;> simp_all
    have closer : s'.closer = s.closer := by cases move <;> rfl
    have still : s'.s1 = s.s1 := by cases move <;> rfl
    exact ⟨by rw [closer, still]; exact first, fun late => absurd (second (closer ▸ late)) alive⟩
  | closer move =>
    cases move with
    | join1 position gone => exact ⟨fun _ => gone, by simp [Closer.phase]⟩
    | join2 position gone =>
      rw [position] at first
      exact ⟨fun _ => first (by simp [Closer.phase]), fun _ => gone⟩
    | @sweepLock err bucket p position alive free page enqueue =>
      cases enqueue <;> exact ⟨by simp [Engine.sweepAfter, Closer.phase],
        by simp [Engine.sweepAfter, Closer.phase]⟩
    | shutdown2 position =>
      rw [position] at first
      exact ⟨fun _ => first (by simp [Closer.phase]), by simp [Closer.phase]⟩
    | lastCheck position | destroy position | closeFd position =>
      rw [position] at first second
      exact ⟨fun _ => first (by simp [Closer.phase]), fun _ => second (by simp [Closer.phase])⟩
    | close | disarm | firstDrain | sweepBucket | sweepDone | sweepFault | partialInc | partialPush
    | fullInc | fullEnter | fullPush | sweepUnlock | sweepNextFault | sweepNext | secondDrain
    | stopping | shutdown1 => exact ⟨by simp [Closer.phase], by simp [Closer.phase]⟩

/-- While a stage runs, `nox_close` has still to look at the latch. -/
theorem Joined.early1 (joined : Joined s) (runs : s.s1 ≠ .exited) : s.closer.phase ≤ 10 := by
  by_contra late
  exact runs (joined.first (by omega))

theorem Joined.early2 (joined : Joined s) (runs : s.s2 ≠ .exited) : s.closer.phase ≤ 10 := by
  by_contra late
  exact runs (joined.second (by omega))

/-- Before `nox_close` looks at the latch for the last time it may still be set. -/
theorem Closer.Agrees.latch {closer : Closer} {ioErr close : Bool}
    (agrees : closer.Agrees ioErr close) (early : closer.phase ≤ 10) (next : Bool)
    (grows : ioErr = true → next = true) : closer.Agrees next close := by
  cases closer with
  | destroy | closeFd | returned => simp [Closer.phase] at early
  | running | disarm | firstDrain | fault => exact agrees
  | _ => exact ⟨fun set => grows (agrees.1 set), agrees.2⟩

theorem faults_of_fg (move : FgMove cfg s label s') : Faults.noteStep s label faults = faults := by
  cases move <;> rfl

/-- A batch is written, or given up. -/
theorem written_of_done {batch : List PageId} {st : PwritevState} {result : IoResult}
    {total : Nat}
    (outcome : pwritevAfter (batch.map fun _ => zoneSize) st result = .done (some total)) :
    total = batch.length * zoneSize := by
  rw [(pwritevAfter_done outcome).1, List.map_const', List.sum_replicate_nat]

namespace Noted

theorem init (cfg : Config) (file : File) (scratch : Nat → UInt8) :
    Noted (Engine.init n cfg file scratch) .none := by
  constructor <;> simp [Engine.init, Stage1.unlatched, Stage2.unlatched, Closer.Agrees, Faults.none]

theorem stage1 (noted : Noted s faults) (joined : Joined s) (move : Stage1Move cfg s label s') :
    Noted s' (Faults.noteStep s label faults) := by
  obtain ⟨latched, verdict⟩ := noted
  cases move with
  | drop position =>
    have early := joined.early1 (by simp [position])
    refine ⟨?_, verdict.latch early true fun _ => rfl⟩
    simpa [Faults.noteStep, position, Stage1.unlatched] using latched
  | preadFail position =>
    refine ⟨?_, verdict⟩
    simp [Faults.noteStep, Stage1.unlatched]
  | preadOk position | pop position | exit position | inspectFull position | inspectBusy position
  | inspectHoles position | forwardEnter position | forwardPush position | busyPush position
  | wake position | guardPass position | readStart position | readEnd position
  | readFailed position | fill position | dropDec position | fillEnter position
  | fillPush position =>
    refine ⟨?_, verdict⟩
    simpa [Faults.noteStep, position, Stage1.unlatched] using latched

theorem stage2 (noted : Noted s faults) (joined : Joined s) (move : Stage2Move s label s') :
    Noted s' (Faults.noteStep s label faults) := by
  obtain ⟨latched, verdict⟩ := noted
  cases move with
  | @latch batch ok position =>
    have early := joined.early2 (by simp [position])
    refine ⟨?_, verdict.latch early _ fun set => by simp [set]⟩
    simp only [position, Stage2.unlatched] at latched
    simp only [Faults.noteStep, latched, Stage2.unlatched, Bool.or_false]
    exact Bool.or_right_comm _ _ _
  | @pwritev batch st result position fits after outcome =>
    refine ⟨?_, verdict⟩
    simp only [position, Stage2.unlatched, Bool.or_false] at latched
    simp only [Faults.noteStep, Engine.givesUp, position, ← outcome, ← Bool.or_assoc, latched]
    cases after with
    | again next => simp [afterPwritev, Stage2.unlatched]
    | done total =>
      cases total with
      | none => simp [afterPwritev, Stage2.unlatched]
      | some total => simp [afterPwritev, Stage2.unlatched, written_of_done outcome.symm]
  | pop position | exit position | poppedBusy position | poppedGo position | busyPush position
  | wake position | collectTake position | collectStop position | checkReady position
  | checkNotReady position | pushBack position | detachDone position | unlinkSkip position
  | unlink position | tag position | writeStart position | written position | freeDone position
  | free position | leave position | decrement position =>
    refine ⟨?_, verdict⟩
    simpa [Faults.noteStep, position, Stage2.unlatched] using latched

theorem closer (noted : Noted s faults) (move : CloserMove s label s') :
    Noted s' (Faults.noteStep s label faults) := by
  obtain ⟨latched, verdict⟩ := noted
  cases move with
  | @sweepLock err bucket p position alive free page enqueue =>
    rw [position] at verdict
    refine ⟨latched, ?_⟩
    cases enqueue <;> exact verdict
  | secondDrain position =>
    rw [position] at verdict
    refine ⟨latched, fun set => ?_, verdict.2⟩
    rcases Bool.or_eq_true_iff.mp set with earlier | now
    · exact verdict.1 earlier
    · exact now
  | close position | disarm position | firstDrain position | sweepBucket position
  | sweepDone position | sweepFault position | partialInc position | partialPush position
  | fullInc position | fullEnter position | fullPush position | sweepUnlock position
  | sweepNextFault position | sweepNext position | stopping position
  | shutdown1 position | join1 position | shutdown2 position | join2 position
  | lastCheck position | destroy position | closeFd position =>
    rw [position] at verdict
    refine ⟨latched, ?_⟩
    simp_all [Closer.Agrees, Faults.noteStep]

theorem step (noted : Noted s faults) (joined : Joined s) (move : Move cfg s label s') :
    Noted s' (Faults.noteStep s label faults) := by
  cases move with
  | fg move =>
    rw [faults_of_fg move]
    cases move <;> exact ⟨noted.latched, noted.verdict⟩
  | stage1 move => exact noted.stage1 joined move
  | stage2 move => exact noted.stage2 joined move
  | closer move => exact noted.closer move

/-- Stage-1 dies before anybody joined it. -/
theorem dies (noted : Noted s faults) (joined : Joined s) (idle : s.s1 = .idle) :
    Noted { s with s1 := .exited, ioErr := true } { faults with scratch := true } := by
  have early := joined.early1 (by simp [idle])
  exact ⟨by simp, noted.verdict.latch early true fun _ => rfl⟩

end Noted

/-- What is known of a launched engine and its record. -/
structure Audited (l : Launch n) (faults : Faults) : Prop where
  waiting : l.allocated = none → l.engine.s1 = .idle
  joined : Joined l.engine
  noted : Noted l.engine faults

theorem Audited.init (cfg : Config) (file : File) (scratch : Nat → UInt8) :
    Audited (Launch.init n cfg file scratch) .none where
  waiting := fun _ => rfl
  joined := ⟨by simp [Launch.init, Engine.init, Closer.phase],
    by simp [Launch.init, Engine.init, Closer.phase]⟩
  noted := .init cfg file scratch

theorem Audited.step {l l' : Launch n} {label : LaunchLabel n} (audited : Audited l faults)
    (move : LaunchMove cfg l label l') : Audited l' (faults.note l label) := by
  obtain ⟨waiting, joined, noted⟩ := audited
  cases move with
  | gets none => exact ⟨by simp, joined, noted⟩
  | dies none =>
    have idle := waiting none
    refine ⟨by simp, ⟨fun _ => rfl, joined.second⟩, noted.dies joined idle⟩
  | @step label engine zone taken =>
    have move := move_of_step taken
    refine ⟨fun without => ?_, joined.move move, noted.step joined move⟩
    have other : label.isStage1 = false := Bool.eq_false_iff.mpr fun stage1 => by
      simp [zone stage1] at without
    exact (s1_of_step other taken).trans (waiting without)

/-- In every run `nox_close` returns `-1` exactly if Stage-1 got no scratch zone, a `pread` of
Stage-1 failed, a batch of Stage-2 was given up, or the file descriptor could not be closed. -/
theorem close_reports_exactly {l : Launch n} {err : Bool}
    (run : Run (recording (Launch.step cfg) Faults.note) (fun _ _ => True)
      (Launch.init n cfg file scratch, .none) (l, faults))
    (closed : l.engine.closer = .returned err) :
    err = (faults.scratch || faults.read || faults.write || faults.close) := by
  obtain ⟨-, joined, latched, verdict⟩ : Audited l faults :=
    run.invariant (fun both => Audited both.1 both.2) (.init cfg file scratch)
      fun known _ stepped => by
        obtain ⟨taken, record⟩ := recording_eq_some stepped
        rw [record]
        exact known.step (Launch.move_of_step taken)
  -- Both stages are gone, so nothing is on its way into the latch.
  have exited1 := joined.first (by simp [closed, Closer.phase])
  have exited2 := joined.second (by simp [closed, Closer.phase])
  simp only [exited1, exited2, Stage1.unlatched, Stage2.unlatched, Bool.or_false] at latched
  rw [closed] at verdict
  rw [latched]
  exact verdict

/-- `nox_close` from its entry to its return, when no page is left. -/
def tinyClose : List (Label 1) :=
  .close :: List.replicate (piBuckets + 5) .closer ++
    [.stage1, .closer, .closer, .stage2, .closer, .closer, .closer, .closeFd true]

/-- The small run with a device that takes nothing, up to the return of `nox_close`. -/
def fullDevice : List (Label 1) :=
  tinyWrite ++ tinyFill ++ tinyWriteback.dropLast ++ [.pwritev (.ok 0)] ++ tinyFree ++ tinyClose

/-- `nox_close` when nothing was ever written and Stage-1 is gone. -/
def idleClose : List (Label 1) :=
  .close :: List.replicate (piBuckets + 7) .closer ++
    [.stage2, .closer, .closer, .closer, .closeFd true]

/-- Evaluating a list of labels up to the return of `nox_close`. -/
theorem exists_reported (labels : List (LaunchLabel 1)) (faults : Faults) (err : Bool)
    (followed : (Run.follow (fun _ _ => true) (recording (Launch.step .standard) Faults.note)
      (Launch.init 1 .standard emptyFile (fun _ => 0), .none) labels).any
      (fun both => both.1.engine.closer = .returned err ∧ both.2 = faults) = true) :
    ∃ l : Launch 1, Run (recording (Launch.step .standard) Faults.note) (fun _ _ => True)
      (Launch.init 1 .standard emptyFile (fun _ => 0), .none) (l, faults) ∧
      l.engine.closer = .returned err := by
  have reached : ∃ both, Run (recording (Launch.step .standard) Faults.note) (fun _ _ => True)
      (Launch.init 1 .standard emptyFile (fun _ => 0), .none) both ∧
      both.1.engine.closer = .returned err ∧ both.2 = faults :=
    Run.exists_of_follow _ (fun _ _ => true) labels (fun _ _ _ => trivial)
      (fun both : Launch 1 × Faults => both.1.engine.closer = .returned err ∧ both.2 = faults)
      followed
  obtain ⟨⟨l, noted⟩, run, closed, rfl⟩ := reached
  exact ⟨l, run, closed⟩

/-- A page is lost, and `nox_close` says so; and it says so when Stage-1 got no scratch zone,
although nothing was written. -/
theorem close_reports_exactly_of_faults :
    (∃ (l : Launch 1) (faults : Faults),
      Run (recording (Launch.step .standard) Faults.note) (fun _ _ => True)
        (Launch.init 1 .standard emptyFile (fun _ => 0), .none) (l, faults) ∧
      l.engine.closer = .returned true ∧ faults = { Faults.none with write := true } ∧
      true = (faults.scratch || faults.read || faults.write || faults.close)) ∧
    ∃ (l : Launch 1) (faults : Faults),
      Run (recording (Launch.step .standard) Faults.note) (fun _ _ => True)
        (Launch.init 1 .standard emptyFile (fun _ => 0), .none) (l, faults) ∧
      l.engine.closer = .returned true ∧ faults = { Faults.none with scratch := true } ∧
      true = (faults.scratch || faults.read || faults.write || faults.close) := by
  obtain ⟨lost, run, closed⟩ := exists_reported (.scratch true :: fullDevice.map .step)
    { Faults.none with write := true } true (by decide +kernel)
  obtain ⟨starved, run', closed'⟩ := exists_reported (.scratch false :: idleClose.map .step)
    { Faults.none with scratch := true } true (by decide +kernel)
  exact ⟨⟨lost, _, run, closed, rfl, close_reports_exactly run closed⟩,
    ⟨starved, _, run', closed', rfl, close_reports_exactly run' closed'⟩⟩

end NoxDB

import NoxDB.Engine.Budget
import NoxDB.Engine.Progress
import NoxDB.Library.Potentials

/-! # Every call comes to an end

Between two calls of the application the engine makes a bounded number of steps, whoever
is scheduled and whatever the device and the allocator answer.  Where it makes no more,
nothing is queued or in anybody's hands and `nox_close`, once called, has returned or has
run into a freed page; the only thing a writer can still wait for is a gate that is held
shut by pages whose read failed.  Without a fault there are none, so every call returns.
-/

namespace NoxDB

open Library.Runs

variable {n : Nat} {cfg : Config} {file : File} {scratch : Nat → UInt8} {s s' : Engine n}
  {label : Label n}

/-! ## Where nothing moves -/

/-- A queue is shut down before `nox_close` waits for its thread. -/
structure ShutFirst (s : Engine n) : Prop where
  shut1 : 7 ≤ s.closer.phase → s.shut1 = true
  shut2 : 9 ≤ s.closer.phase → s.shut2 = true

theorem ShutFirst.step (first : ShutFirst s) (move : Move cfg s label s') : ShutFirst s' := by
  obtain ⟨shut1, shut2⟩ := first
  cases move with
  | fg move => cases move <;> exact ⟨shut1, shut2⟩
  | stage1 move => cases move <;> exact ⟨shut1, shut2⟩
  | stage2 move => cases move <;> exact ⟨shut1, shut2⟩
  | closer move =>
    cases move with
    | @sweepLock err bucket p position alive free page enqueue =>
      rw [position] at shut1 shut2
      cases enqueue <;> exact ⟨shut1, shut2⟩
    | close position | disarm position | firstDrain position | sweepBucket position
    | sweepDone position | sweepFault position | partialInc position | partialPush position
    | fullInc position | fullEnter position | fullPush position | sweepUnlock position
    | sweepNextFault position | sweepNext position | secondDrain position | stopping position
    | shutdown1 position | join1 position | shutdown2 position | join2 position
    | lastCheck position | destroy position | closeFd position =>
      rw [position] at shut1 shut2
      constructor <;> simp_all [Closer.phase]

/-- What the engine keeps along a run, whatever happens. -/
structure Running (cfg : Config) (s : Engine n) : Prop where
  sound : Sound cfg s
  aimed : Aimed s
  first : ShutFirst s

theorem Running.step (running : Running cfg s) (move : Move cfg s label s') : Running cfg s' where
  sound := running.sound.move move
  aimed := running.sound.aimed_step running.aimed move
  first := running.first.step move

theorem Running.init (cfg : Config) (file : File) (scratch : Nat → UInt8) :
    Running cfg (Engine.init n cfg file scratch) where
  sound := .init cfg file scratch
  aimed := by simp [Aimed, Engine.init]
  first := by constructor <;> simp [Engine.init, Closer.phase]

/-- Nothing is under way, and the pages that are left are in nobody's hands. -/
structure AtRest (s : Engine n) : Prop where
  writers : ∀ t, s.fg t = .idle ∨ (s.fg t).isParked = true ∧ s.watermark.low < s.watermark.live
  queues : s.q1 = [] ∧ s.q2 = []
  pending : s.pending = 0
  pages : ∀ p, s.custody.Alive p → s.custody.Stranded p
  closer : s.closer = .running ∨ (∃ err, s.closer = .returned err) ∨ s.closer = .fault

theorem atRest_of_stuck (running : Running cfg s) (stuck : Stuck cfg s) : AtRest s where
  writers := stuck.fg running.sound
  queues := ⟨(stuck.stage1 running.sound).2, (stuck.stage2 running.sound).2⟩
  pending := stuck.drained running.sound
  pages := fun p alive =>
    { alive
      outside := by
        simp [Walk.pipe_nil_of_drained running.sound.pending (stuck.drained running.sound)]
      alone := fun o => by simp [stuck.role running.sound o, Role.carried] }
  closer := by
    have sound := running.sound
    rcases stuck.waits sound .closer with ⟨-, unready⟩ | resting
    · simp [Engine.isReady, stuck.drained sound] at unready
    · rcases resting with open_ | returned | fault | ⟨err, position, lives⟩ | ⟨err, position, lives⟩
      · exact .inl open_
      · exact .inr (.inl returned)
      · exact .inr (.inr fault)
      -- A thread that is waited for has been told to stop and has nothing left.
      · have shut := running.first.shut1 (by simp [position, Closer.phase])
        rcases (stuck.stage1 sound).1 with ⟨-, unshut⟩ | exited
        · simp [shut] at unshut
        · exact absurd exited lives
      · have shut := running.first.shut2 (by simp [position, Closer.phase])
        rcases (stuck.stage2 sound).1 with ⟨-, unshut⟩ | exited
        · simp [shut] at unshut
        · exact absurd exited lives

theorem own_ne_call (own : label.isOwn = true) (t : Fin n) (call : Call) : label ≠ .call t call := by
  rintro rfl
  simp [Label.isOwn] at own

/-! ## Runs between two calls -/

/-- Once Stage-1 has its scratch zone: from every reachable state the engine makes at most `budget`
steps without a new call, and where it stops it has settled. -/
theorem engine_settles (reached : Reachable cfg file scratch s) :
    (∀ length s', Steps (Engine.step cfg) (fun _ label => label.isOwn = true) s length s' →
      length ≤ s.budget cfg) ∧
    (∀ s', Run (Engine.step cfg) (fun _ label => label.isOwn = true) s s' →
      Final (Engine.step cfg) (fun _ label => label.isOwn = true) s' → AtRest s') ∧
    ∃ s', Run (Engine.step cfg) (fun _ label => label.isOwn = true) s s' ∧ AtRest s' := by
  have running : Running cfg s := reached.invariant (Running cfg) (.init cfg file scratch)
    fun running _ stepped => running.step (move_of_step stepped)
  have keeps : ∀ {middle last : Engine n} {label : Label n}, Running cfg middle →
      label.isOwn = true → middle.step cfg label = some last → Running cfg last :=
    fun running _ stepped => running.step (move_of_step stepped)
  have drops : ∀ {middle last : Engine n} {label : Label n}, Running cfg middle →
      label.isOwn = true → middle.step cfg label = some last →
      last.budget cfg < middle.budget cfg := fun running own stepped =>
    budget_step running.sound running.aimed (own_ne_call own) (move_of_step stepped)
  have ends : ∀ s', Run (Engine.step cfg) (fun _ label => label.isOwn = true) s s' →
      Final (Engine.step cfg) (fun _ label => label.isOwn = true) s' → AtRest s' := by
    intro s' run final
    have there := run.invariant (Running cfg) running keeps
    refine atRest_of_stuck there fun t able => ?_
    obtain ⟨label, next, -, stepped, own, -⟩ := able
    exact absurd (final label own) (by simp [stepped])
  refine ⟨fun length s' steps => ?_, ends, ?_⟩
  · have paid := steps.length_add_le (Running cfg) (Engine.budget cfg) running keeps drops
    omega
  · obtain ⟨s', run, final⟩ := exists_final (Running cfg) (Engine.budget cfg) running keeps drops
    exact ⟨s', run, ends s' run final⟩

/-- `nox_close` with a page in Queue-1 settles. -/
theorem engine_settles_of_closing :
    ∃ s : Engine 1, Reachable .standard emptyFile (fun _ => 0) s ∧ s.closer = .disarm ∧
      s.q1 = [0] ∧
      ∃ s', Run (Engine.step .standard) (fun _ label => label.isOwn = true) s s' ∧ AtRest s' := by
  obtain ⟨s, reached, closing, queued⟩ :=
    exists_reachable .standard emptyFile (fun _ => 0) (tinyWrite ++ [.close])
      (fun s => s.closer = .disarm ∧ s.q1 = [0]) (by decide +kernel)
  exact ⟨s, reached, closing, queued, (engine_settles reached).2.2⟩

/-! ## Runs without a fault -/

/-- What a run without a fault adds. -/
structure Faultless (cfg : Config) (s : Engine n) : Prop where
  running : Running cfg s
  calm : Calm s
  level : Level 0 s

theorem Faultless.step (before : Faultless cfg s) (faultless : label.faultless = true)
    (stepped : s.step cfg label = some s') : Faultless cfg s' := by
  obtain ⟨running, calm, level⟩ := before
  have move := move_of_step stepped
  exact ⟨running.step move, calm.step running.sound faultless move, level.step running.sound move⟩

/-- As long as no allocation fails and no device call reports an error, every `nox_write` and
every `nox_close` returns, and after at most `budget` steps, whoever is scheduled. -/
theorem calls_return
    (run : Run (Engine.step cfg) (fun _ label => label.faultless = true)
      (Engine.init n cfg file scratch) s) :
    (∀ length s', Steps (Engine.step cfg) (fun _ label => Advances label) s length s' →
      length ≤ s.budget cfg) ∧
    ∀ s', Run (Engine.step cfg) (fun _ label => Advances label) s s' →
      Final (Engine.step cfg) (fun _ label => Advances label) s' → ¬ Unreturned s' := by
  have here : Faultless cfg s :=
    run.invariant (Faultless cfg)
      ⟨.init cfg file scratch, .init cfg file scratch, .openAt cfg file scratch 0⟩
      fun before faultless stepped => before.step faultless stepped
  constructor
  · intro length s' steps
    have paid := steps.length_add_le (Running cfg) (Engine.budget cfg) here.running
      (fun running _ stepped => running.step (move_of_step stepped))
      fun running advances stepped => budget_step running.sound running.aimed
        (own_ne_call advances.1) (move_of_step stepped)
    omega
  · intro s' onward final unreturned
    obtain ⟨running, calm, level⟩ := onward.invariant (Faultless cfg) here
      fun before advances stepped => before.step advances.2 stepped
    refine not_stuck running.sound calm level unreturned fun t able => ?_
    obtain ⟨label, next, -, stepped, advances⟩ := able
    exact absurd (final label advances) (by simp [stepped])

/-- Behind a gate for one page, with a writer asleep at it. -/
theorem calls_return_of_parked :
    ∃ s : Engine 1, Run (Engine.step .narrow) (fun _ label => label.faultless = true)
        (Engine.init 1 .narrow emptyFile fun _ => 0) s ∧ (s.fg 0).isParked = true ∧
      ∀ s', Run (Engine.step .narrow) (fun _ label => Advances label) s s' →
        Final (Engine.step .narrow) (fun _ label => Advances label) s' → s'.fg 0 = .idle := by
  obtain ⟨s, run, parked⟩ := exists_run .narrow emptyFile (fun _ => 0)
    (fun _ label => label.faultless) (fun _ _ passed => passed)
    (tinyWrite ++ [.call 0 tinySecond, .fg 0]) (fun s : Engine 1 => (s.fg 0).isParked = true)
    (by decide +kernel)
  refine ⟨s, run, parked, fun s' onward final => ?_⟩
  have returned := (calls_return run).2 s' onward final
  by_contra busy
  exact returned (.inl ⟨0, busy⟩)

end NoxDB

import NoxDB.Engine.State
import NoxDB.Library.Runs

/-! # The watermark gate

The module state of `watermark.c` with the threads that call it.  Each call runs under
`g_lock`, so it is one step, except that `nox_watermark_wait` gives the lock up while it
sleeps on `g_cv`: a sleeping thread is woken by a broadcast or spuriously, and resumes when
it gets the lock back.  The marks are those of one build; `nox_watermark_arm` sets them each
time.  `g_live` is a `uint32_t` and `g_blocked_count` a `uint64_t`, and both wrap.

The history records which calls went to sleep and, for each call that returned, what it found
under the lock when it did.
-/

namespace NoxDB

open Function (update)
open Library.Runs

variable {Thread : Type}

/-- Where a thread is with respect to `nox_watermark_wait`. -/
inductive Waiter where
  | outside
  /-- In `pthread_cond_wait`; once woken it only needs the lock to go on. -/
  | asleep (woken : Bool)
deriving DecidableEq, Repr

def Waiter.wake : Waiter → Waiter
  | .outside => .outside
  | .asleep _ => .asleep true

inductive GateEvent (Thread : Type) where
  | slept (t : Thread)
  | returned (t : Thread) (slept : Bool) (found : Watermark)
deriving DecidableEq, Repr

structure Gate (Thread : Type) where
  watermark : Watermark
  waiter : Thread → Waiter
  history : List (GateEvent Thread)

inductive GateLabel (Thread : Type) where
  | arm
  | disarm
  | wait (t : Thread)
  | noteAlloc
  | noteFree
  /-- `pthread_cond_wait` returns without a broadcast. -/
  | spurious (t : Thread)
  /-- A woken thread gets `g_lock` back and tests the predicate of its loop again. -/
  | resume (t : Thread)
deriving DecidableEq, Repr

namespace Gate

/-- The static initialisers. -/
def init : Gate Thread where
  watermark := { armed := false, high := 0, low := 0, live := 0, blockedCount := 0 }
  waiter := fun _ => .outside
  history := []

/-- `pthread_cond_broadcast(&g_cv)` -/
def broadcast (g : Gate Thread) : Gate Thread := { g with waiter := fun t => (g.waiter t).wake }

def record (g : Gate Thread) (event : GateEvent Thread) : Gate Thread :=
  { g with history := event :: g.history }

variable [DecidableEq Thread]

/-- `nox_watermark_arm` -/
def arm (cfg : Config) (g : Gate Thread) : Gate Thread :=
  { g with watermark := { g.watermark with high := cfg.high, low := cfg.low, armed := true } }

/-- `nox_watermark_disarm` -/
def disarm (g : Gate Thread) : Gate Thread :=
  ({ g with watermark := { g.watermark with armed := false } } : Gate Thread).broadcast

/-- `nox_watermark_wait` up to its return or its first `pthread_cond_wait`. -/
def wait (g : Gate Thread) (t : Thread) : Option (Gate Thread) :=
  match g.waiter t with
  | .outside =>
    if g.watermark.armed = false ∨ g.watermark.live < g.watermark.high then
      some (g.record (.returned t false g.watermark))
    else
      some (({ g with
        watermark := { g.watermark with blockedCount := (g.watermark.blockedCount + 1) % word }
        waiter := update g.waiter t (.asleep false) } : Gate Thread).record (.slept t))
  | .asleep _ => none

/-- The loop of `nox_watermark_wait` after a wakeup. -/
def resume (g : Gate Thread) (t : Thread) : Option (Gate Thread) :=
  match g.waiter t with
  | .asleep true =>
    if g.watermark.armed = true ∧ g.watermark.low < g.watermark.live then
      some { g with waiter := update g.waiter t (.asleep false) }
    else
      some (({ g with waiter := update g.waiter t .outside } : Gate Thread).record
        (.returned t true g.watermark))
  | _ => none

/-- `nox_watermark_note_alloc` -/
def noteAlloc (g : Gate Thread) : Gate Thread :=
  { g with watermark := { g.watermark with live := (g.watermark.live + 1) % 2 ^ 32 } }

/-- `nox_watermark_note_free`, which asserts that there is something to free. -/
def noteFree (g : Gate Thread) : Option (Gate Thread) :=
  if g.watermark.live = 0 then none
  else
    let g := { g with watermark := { g.watermark with live := g.watermark.live - 1 } }
    if g.watermark.armed = true ∧ g.watermark.live ≤ g.watermark.low then some g.broadcast
    else some g

def step (cfg : Config) (g : Gate Thread) : GateLabel Thread → Option (Gate Thread)
  | .arm => some (g.arm cfg)
  | .disarm => some g.disarm
  | .wait t => g.wait t
  | .noteAlloc => some g.noteAlloc
  | .noteFree => g.noteFree
  | .spurious t => some { g with waiter := update g.waiter t (g.waiter t).wake }
  | .resume t => g.resume t

/-- How many calls of `nox_watermark_wait` the history records as having gone to sleep. -/
def sleeps (g : Gate Thread) : Nat :=
  g.history.countP fun
    | .slept _ => true
    | .returned _ _ _ => false

end Gate

/-! ## What a step can do -/

theorem Waiter.wake_ne (w : Waiter) : w.wake ≠ .asleep false := by
  cases w <;> simp [wake]

section Moves

variable [DecidableEq Thread] {cfg : Config} {g g' : Gate Thread} {label : GateLabel Thread}

/-- The ways a step of the gate can go. -/
inductive GateMove (cfg : Config) (g : Gate Thread) : GateLabel Thread → Gate Thread → Prop where
  | arm : GateMove cfg g .arm (g.arm cfg)
  | disarm : GateMove cfg g .disarm g.disarm
  | pass {t} (outside : g.waiter t = .outside)
      (room : g.watermark.armed = false ∨ g.watermark.live < g.watermark.high) :
      GateMove cfg g (.wait t) (g.record (.returned t false g.watermark))
  | sleep {t} (outside : g.waiter t = .outside) (armed : g.watermark.armed = true)
      (noRoom : g.watermark.high ≤ g.watermark.live) :
      GateMove cfg g (.wait t)
        { watermark := { g.watermark with blockedCount := (g.watermark.blockedCount + 1) % word }
          waiter := update g.waiter t (.asleep false)
          history := .slept t :: g.history }
  | noteAlloc : GateMove cfg g .noteAlloc g.noteAlloc
  | release (some : 0 < g.watermark.live) (armed : g.watermark.armed = true)
      (low : g.watermark.live - 1 ≤ g.watermark.low) :
      GateMove cfg g .noteFree
        { watermark := { g.watermark with live := g.watermark.live - 1 }
          waiter := fun t => (g.waiter t).wake
          history := g.history }
  | noteFree (some : 0 < g.watermark.live)
      (high : g.watermark.armed = true → g.watermark.low < g.watermark.live - 1) :
      GateMove cfg g .noteFree
        { g with watermark := { g.watermark with live := g.watermark.live - 1 } }
  | spurious {t} :
      GateMove cfg g (.spurious t) { g with waiter := update g.waiter t (g.waiter t).wake }
  | again {t} (woken : g.waiter t = .asleep true) (armed : g.watermark.armed = true)
      (high : g.watermark.low < g.watermark.live) :
      GateMove cfg g (.resume t) { g with waiter := update g.waiter t (.asleep false) }
  | leave {t} (woken : g.waiter t = .asleep true)
      (released : g.watermark.armed = false ∨ g.watermark.live ≤ g.watermark.low) :
      GateMove cfg g (.resume t)
        { g with
          waiter := update g.waiter t .outside
          history := .returned t true g.watermark :: g.history }

theorem Gate.move_of_step (stepped : g.step cfg label = some g') : GateMove cfg g label g' := by
  cases label with
  | arm => cases stepped; exact .arm
  | disarm => cases stepped; exact .disarm
  | noteAlloc => cases stepped; exact .noteAlloc
  | spurious t => cases stepped; exact .spurious
  | wait t =>
    simp only [Gate.step, Gate.wait] at stepped
    split at stepped
    · next outside =>
      split at stepped
      · next room => cases stepped; exact .pass outside room
      · next noRoom =>
        cases stepped
        rw [not_or, Bool.not_eq_false, Nat.not_lt] at noRoom
        exact .sleep outside noRoom.1 noRoom.2
    · contradiction
  | noteFree =>
    simp only [Gate.step, Gate.noteFree] at stepped
    split at stepped
    · contradiction
    · next some =>
      have some := Nat.pos_of_ne_zero some
      split at stepped
      · next low => cases stepped; exact .release some low.1 low.2
      · next high =>
        cases stepped
        exact .noteFree some fun armed => Nat.lt_of_not_le fun low => high ⟨armed, low⟩
  | resume t =>
    simp only [Gate.step, Gate.resume] at stepped
    split at stepped
    · next woken =>
      split at stepped
      · next high => cases stepped; exact .again woken high.1 high.2
      · next released =>
        cases stepped
        refine .leave woken ?_
        rw [not_and_or, Bool.not_eq_true, Nat.not_lt] at released
        exact released
    · contradiction

theorem Gate.step_of_move (move : GateMove cfg g label g') : g.step cfg label = some g' := by
  cases move with
  | arm | disarm | noteAlloc | spurious => rfl
  | pass outside room => simp only [Gate.step, Gate.wait, outside, room, if_true]
  | sleep outside armed noRoom =>
    have closed : ¬ (g.watermark.armed = false ∨ g.watermark.live < g.watermark.high) := by
      simpa [armed] using noRoom
    simp only [Gate.step, Gate.wait, outside, closed, if_false]
    rfl
  | release some armed low =>
    simp only [Gate.step, Gate.noteFree, Nat.pos_iff_ne_zero.mp some, if_false, armed, low,
      and_self, if_true]
    rfl
  | noteFree some high =>
    have above : ¬ (g.watermark.armed = true ∧ g.watermark.live - 1 ≤ g.watermark.low) :=
      fun both => absurd (high both.1) (Nat.not_lt.mpr both.2)
    simp only [Gate.step, Gate.noteFree, Nat.pos_iff_ne_zero.mp some, if_false, above]
  | again woken armed high =>
    simp only [Gate.step, Gate.resume, woken, armed, high, and_self, if_true]
  | leave woken released =>
    have passes : ¬ (g.watermark.armed = true ∧ g.watermark.low < g.watermark.live) := by
      rw [not_and_or, Bool.not_eq_true, Nat.not_lt]
      exact released
    simp only [Gate.step, Gate.resume, woken, passes, if_false]
    rfl

end Moves

/-! ## Hysteresis without lost wakeups -/

/-- What a call of `nox_watermark_wait` that returned may have found. -/
def GateEvent.Released (cfg : Config) : GateEvent Thread → Prop
  | .slept _ => True
  | .returned _ false found => found.armed = false ∨ found.live < cfg.high
  | .returned _ true found => found.armed = false ∨ found.live ≤ cfg.low

structure Hysteresis (cfg : Config) (g : Gate Thread) : Prop where
  marks : g.watermark.armed = true → g.watermark.high = cfg.high ∧ g.watermark.low = cfg.low
  released : ∀ event ∈ g.history, event.Released cfg
  counted : g.watermark.blockedCount = g.sleeps % word
  level : g.watermark.live < 2 ^ 32

/-- Whoever sleeps with no wakeup pending has a reason to. -/
def NoLostWakeup (cfg : Config) (g : Gate Thread) : Prop :=
  ∀ t, g.waiter t = .asleep false → g.watermark.armed = true ∧ cfg.low < g.watermark.live

/-- `g_live` does not wrap to zero under a thread that sleeps with no wakeup pending. -/
def Gate.NoWrap (g : Gate Thread) : GateLabel Thread → Prop
  | .noteAlloc => g.watermark.live + 1 = 2 ^ 32 → ∀ t, g.waiter t ≠ .asleep false
  | _ => True

section Steps

variable [DecidableEq Thread] {cfg : Config} {g g' : Gate Thread} {label : GateLabel Thread}

namespace Hysteresis

omit [DecidableEq Thread] in
theorem init (cfg : Config) : Hysteresis cfg (Gate.init : Gate Thread) where
  marks := by simp [Gate.init]
  released := by simp [Gate.init]
  counted := rfl
  level := by simp [Gate.init]

theorem step (holds : Hysteresis cfg g) (move : GateMove cfg g label g') : Hysteresis cfg g' := by
  obtain ⟨marks, released, counted, level⟩ := holds
  cases move with
  | arm => exact ⟨fun _ => ⟨rfl, rfl⟩, released, counted, level⟩
  | disarm => exact ⟨by simp [Gate.disarm, Gate.broadcast], released, counted, level⟩
  | @pass t outside room =>
    refine ⟨marks, List.forall_mem_cons.mpr ⟨?_, released⟩, counted, level⟩
    cases armed : g.watermark.armed with
    | false => exact .inl armed
    | true =>
      right
      rw [← (marks armed).1]
      exact room.resolve_left (by simp [armed])
  | @sleep t outside armed noRoom =>
    refine ⟨marks, List.forall_mem_cons.mpr ⟨trivial, released⟩, ?_, level⟩
    simp [Gate.sleeps, counted]
  | noteAlloc => exact ⟨marks, released, counted, Nat.mod_lt _ (by decide)⟩
  | release | noteFree =>
    exact ⟨marks, released, counted, Nat.lt_of_le_of_lt (Nat.sub_le _ 1) level⟩
  | @spurious t => exact ⟨marks, released, counted, level⟩
  | @again t woken armed high => exact ⟨marks, released, counted, level⟩
  | @leave t woken free =>
    refine ⟨marks, List.forall_mem_cons.mpr ⟨?_, released⟩, counted, level⟩
    cases armed : g.watermark.armed with
    | false => exact .inl armed
    | true =>
      right
      rw [← (marks armed).2]
      exact free.resolve_left (by simp [armed])

end Hysteresis

theorem NoLostWakeup.step (awake : NoLostWakeup cfg g) (holds : Hysteresis cfg g)
    (noWrap : g.NoWrap label) (move : GateMove cfg g label g') : NoLostWakeup cfg g' := by
  have marks := holds.marks
  intro t' asleep
  cases move with
  | arm => exact ⟨rfl, (awake t' asleep).2⟩
  -- Everybody is woken.
  | disarm => exact absurd asleep (Waiter.wake_ne _)
  | release some armed low => exact absurd asleep (Waiter.wake_ne _)
  | pass outside room => exact awake t' asleep
  | sleep outside armed noRoom =>
    -- The level is at the high mark, which is above the low one.
    have high := (marks armed).1
    have band := cfg.low_lt_high
    exact ⟨armed, by dsimp only; omega⟩
  | noteAlloc =>
    obtain ⟨armed, above⟩ := awake t' asleep
    refine ⟨armed, ?_⟩
    by_cases last : g.watermark.live + 1 = 2 ^ 32
    · exact absurd asleep (noWrap last t')
    · have level := holds.level
      have room : g.watermark.live + 1 < 2 ^ 32 := by omega
      simp only [Gate.noteAlloc, Nat.mod_eq_of_lt room]
      omega
  | noteFree some high =>
    have armed := (awake t' asleep).1
    rw [← (marks armed).2]
    exact ⟨armed, high armed⟩
  | @spurious t =>
    by_cases same : t' = t
    · subst same
      exact absurd (by simpa using asleep) (Waiter.wake_ne (g.waiter t'))
    · exact awake t' (by simpa [same] using asleep)
  | again woken armed high =>
    rw [← (marks armed).2]
    exact ⟨armed, high⟩
  | @leave t woken free =>
    by_cases same : t' = t
    · subst same
      simp at asleep
    · exact awake t' (by simpa [same] using asleep)

theorem hysteresis_of_run {condition : Gate Thread → GateLabel Thread → Prop}
    (run : Run (Gate.step cfg) condition Gate.init g) : Hysteresis cfg g :=
  run.invariant (Hysteresis cfg) (.init cfg) fun holds _ stepped =>
    holds.step (Gate.move_of_step stepped)

theorem noLostWakeup_of_run (run : Run (Gate.step cfg) Gate.NoWrap Gate.init g) :
    NoLostWakeup cfg g :=
  run.invariant_along (Hysteresis cfg) (NoLostWakeup cfg) hysteresis_of_run
    (by simp [NoLostWakeup, Gate.init])
    fun holds awake noWrap stepped => awake.step holds noWrap (Gate.move_of_step stepped)

end Steps

/-- Whatever the threads do, with the gate armed and disarmed at will: a call of
`nox_watermark_wait` that did not sleep found the gate disarmed or the level below the high mark;
one that slept found it disarmed or the level at the low mark or below; unless the 32 bits of the
level wrapped under a sleeper, a thread that sleeps with no wakeup pending sleeps above the low
mark at an armed gate; and `blocked_count` is the number of calls that went to sleep, in 64 bits. -/
theorem hysteresis_no_lost_wakeup [DecidableEq Thread] {cfg : Config} {g : Gate Thread}
    (reached : Run (Gate.step cfg) (fun _ _ => True) Gate.init g) :
    (∀ t slept found, .returned t slept found ∈ g.history →
      found.armed = false ∨ if slept then found.live ≤ cfg.low else found.live < cfg.high) ∧
    (Run (Gate.step cfg) Gate.NoWrap Gate.init g → ∀ t, g.waiter t = .asleep false →
      g.watermark.armed = true ∧ cfg.low < g.watermark.live) ∧
    g.watermark.blockedCount = g.sleeps % word := by
  have holds := hysteresis_of_run reached
  refine ⟨fun t slept found member => ?_, noLostWakeup_of_run, holds.counted⟩
  have released := holds.released _ member
  cases slept <;> exact released

/-- Marks one and zero: a thread sleeps at level one and is woken by the free that empties it;
after the next allocation it sleeps again. -/
theorem hysteresis_of_sleeper :
    ∃ (g : Gate (Fin 1)) (found : Watermark), Run (Gate.step .narrow) Gate.NoWrap Gate.init g ∧
      .returned 0 true found ∈ g.history ∧ found.armed = true ∧ found.live ≤ Config.narrow.low ∧
      g.waiter 0 = .asleep false ∧ Config.narrow.low < g.watermark.live ∧
      g.watermark.blockedCount = 2 ∧ g.sleeps % word = 2 := by
  let found : Watermark := { armed := true, high := 1, low := 0, live := 0, blockedCount := 1 }
  have sleeper : ∃ g : Gate (Fin 1), Run (Gate.step .narrow) Gate.NoWrap Gate.init g ∧
      (.returned 0 true found ∈ g.history ∧ g.waiter 0 = .asleep false ∧
        g.watermark.blockedCount = 2) :=
    Run.exists_of_follow Gate.init (fun g _ => g.watermark.live + 1 != 2 ^ 32)
      [.arm, .noteAlloc, .wait 0, .noteFree, .resume 0, .noteAlloc, .wait 0]
      (fun g label below => by
        cases label with
        | noteAlloc => exact fun last => absurd last (by simpa using below)
        | _ => trivial) _ (by decide)
  obtain ⟨g, run, member, asleep, blocked⟩ := sleeper
  obtain ⟨returned, awake, counted⟩ := hysteresis_no_lost_wakeup (run.weaken fun _ _ _ => trivial)
  exact ⟨g, found, run, member, rfl, (returned 0 true found member).resolve_left (by decide), asleep,
    (awake run 0 asleep).2, blocked, counted.symm.trans blocked⟩

/-! ## Where the counters wrap -/

section Wrapping

variable [DecidableEq Thread] {cfg : Config} {g : Gate Thread}

/-- Any number of allocations in a row. -/
theorem exists_allocs (level : g.watermark.live < 2 ^ 32) (count : Nat) :
    Run (Gate.step cfg) (fun _ _ => True) g
      { g with watermark := { g.watermark with live := (g.watermark.live + count) % 2 ^ 32 } } := by
  induction count with
  | zero =>
    rw [Nat.add_zero, Nat.mod_eq_of_lt level]
    exact .refl
  | succ count inductionHypothesis =>
    have further := inductionHypothesis.tail trivial (Gate.step_of_move .noteAlloc)
    simpa only [Gate.noteAlloc, Nat.mod_add_mod, Nat.add_assoc] using further

/-- The armed gate at its high mark, with nobody asleep after `count` calls that slept. -/
structure Crowded (cfg : Config) (t : Thread) (count : Nat) (g : Gate Thread) : Prop where
  watermark : g.watermark =
    { armed := true, high := cfg.high, low := cfg.low, live := cfg.high,
      blockedCount := count % word }
  outside : g.waiter t = .outside
  sleeps : g.sleeps = count

/-- A thread sleeps, the gate is disarmed to let it go, and armed again. -/
theorem Crowded.again {t : Thread} {count : Nat} (crowded : Crowded cfg t count g) :
    ∃ g', Run (Gate.step cfg) (fun _ _ => True) g g' ∧ Crowded cfg t (count + 1) g' := by
  obtain ⟨watermark, outside, sleeps⟩ := crowded
  have start : Run (Gate.step cfg) (fun _ _ => True) g g := .refl
  have slept := start.tail trivial
    (Gate.step_of_move (.sleep outside (by rw [watermark]) (by rw [watermark])))
  have disarmed := slept.tail trivial (Gate.step_of_move .disarm)
  have left := disarmed.tail trivial (Gate.step_of_move (.leave (t := t)
    (by simp [Gate.disarm, Gate.broadcast, Waiter.wake]) (.inl rfl)))
  have armed := left.tail trivial (Gate.step_of_move .arm)
  refine ⟨_, armed, ?_, by simp [Gate.arm], ?_⟩
  · simp [Gate.arm, Gate.disarm, Gate.broadcast, watermark]
  · rw [← sleeps]
    simp [Gate.sleeps, Gate.arm, Gate.disarm, Gate.broadcast]

theorem Crowded.often {t : Thread} (crowded : Crowded cfg t 0 g) (count : Nat) :
    ∃ g', Run (Gate.step cfg) (fun _ _ => True) g g' ∧ Crowded cfg t count g' := by
  induction count with
  | zero => exact ⟨g, .refl, crowded⟩
  | succ count inductionHypothesis =>
    obtain ⟨middle, run, before⟩ := inductionHypothesis
    obtain ⟨last, further, after⟩ := before.again
    exact ⟨last, run.trans further, after⟩

end Wrapping

/-- Marks one and zero.  A thread sleeps at level one, and `2 ^ 32 - 1` further allocations leave
it asleep at level zero with nobody about to wake it; and after `2 ^ 64` calls that slept
`blocked_count` is zero. -/
theorem hysteresis_wraps :
    (∃ g : Gate (Fin 1), Run (Gate.step .narrow) (fun _ _ => True) Gate.init g ∧
      g.waiter 0 = .asleep false ∧
      ¬ (g.watermark.armed = true ∧ Config.narrow.low < g.watermark.live)) ∧
    ∃ g : Gate (Fin 1), Run (Gate.step .narrow) (fun _ _ => True) Gate.init g ∧
      g.watermark.blockedCount ≠ g.sleeps := by
  constructor
  · have sleeper : ∃ g : Gate (Fin 1), Run (Gate.step .narrow) (fun _ _ => True) Gate.init g ∧
        (g.waiter 0 = .asleep false ∧ g.watermark.live = 1) :=
      Run.exists_of_follow Gate.init (fun _ _ => true) [.arm, .noteAlloc, .wait 0]
        (fun _ _ _ => trivial) _ (by decide)
    obtain ⟨g, run, asleep, level⟩ := sleeper
    have allocs : Run (Gate.step .narrow) (fun _ _ => True) g _ :=
      exists_allocs (by simp [level]) (2 ^ 32 - 1)
    refine ⟨_, run.trans allocs, asleep, fun both => ?_⟩
    have above := both.2
    simp [level, Config.narrow] at above
  · have full : ∃ g : Gate (Fin 1), Run (Gate.step .narrow) (fun _ _ => True) Gate.init g ∧
        (g.watermark = ⟨true, 1, 0, 1, 0⟩ ∧ g.waiter 0 = .outside ∧ g.sleeps = 0) :=
      Run.exists_of_follow Gate.init (fun _ _ => true) [.arm, .noteAlloc]
        (fun _ _ _ => trivial) _ (by decide)
    obtain ⟨g, run, watermark, outside, none⟩ := full
    have crowded : Crowded .narrow 0 0 g := ⟨watermark, outside, none⟩
    obtain ⟨last, further, after⟩ := crowded.often word
    refine ⟨last, run.trans further, ?_⟩
    rw [after.watermark, after.sleeps]
    simp [word]

end NoxDB

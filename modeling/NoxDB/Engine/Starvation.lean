import NoxDB.Engine.Drain

/-! # An engine without a scratch zone

`stage1_loop` allocates its scratch zone when the thread starts.  If that fails it latches an
error and returns, and `nox_open` does not wait for it: the engine runs on with nobody to serve
Queue-1.  A page that is pushed there is counted in `pending` and never counted out, so
`nox_close` waits in `otflush_drain` for ever, and the error it would report is never seen.
-/

namespace NoxDB

open Library.Runs

variable {n : Nat}

/-- The step is one of Stage-1. -/
def Label.isStage1 : Label n → Bool
  | .stage1 | .pread _ => true
  | _ => false

/-- The engine when the scratch zone of Stage-1 cannot be allocated: Stage-1 takes no step but
the one that latches the error and returns. -/
def starvedStep (cfg : Config) (s : Engine n) : Option (Label n) → Option (Engine n)
  | some label => if label.isStage1 then none else s.step cfg label
  | none => if s.s1 = .idle then some { s with s1 := .exited, ioErr := true } else none

/-- Stage-1 has nothing, the pages are counted, and what is in Queue-1 holds up `nox_close`. -/
structure Starved (s : Engine n) : Prop where
  stage1 : s.s1 = .idle ∨ s.s1 = .exited
  pending : Pending s
  writers : 0 < s.closer.phase → ∀ t, s.fg t = .idle
  drained : 4 < s.closer.phase → s.q1 = []

variable {cfg : Config} {file : File} {scratch : Nat → UInt8} {s s' : Engine n}
  {label : Option (Label n)}

/-- The end of Stage-1, or a move of another thread. -/
inductive StarvedMove (cfg : Config) (s s' : Engine n) : Prop where
  | dies (idle : s.s1 = .idle) (after : s' = { s with s1 := .exited, ioErr := true })
  | fg {taken} (move : FgMove cfg s taken s')
  | stage2 {taken} (move : Stage2Move s taken s')
  | closer {taken} (move : CloserMove s taken s')

theorem starvedMove_of_step (stepped : starvedStep cfg s label = some s') :
    StarvedMove cfg s s' := by
  cases label with
  | none =>
    simp only [starvedStep] at stepped
    split at stepped
    · next idle => exact .dies idle (Option.some.inj stepped).symm
    · simp at stepped
  | some taken =>
    simp only [starvedStep] at stepped
    split at stepped
    · simp at stepped
    · next other =>
      cases move_of_step stepped with
      | fg move => exact .fg move
      | stage1 move => cases move <;> simp [Label.isStage1] at other
      | stage2 move => exact .stage2 move
      | closer move => exact .closer move

namespace Starved

theorem init (cfg : Config) (file : File) (scratch : Nat → UInt8) :
    Starved (Engine.init n cfg file scratch) where
  stage1 := .inl rfl
  pending := Pending.init cfg file scratch
  writers := by simp [Engine.init, Closer.phase]
  drained := by simp [Engine.init]

/-- What is in Queue-1 is counted. -/
theorem q1_nil (starved : Starved s) (empty : s.pending = 0) : s.q1 = [] :=
  (Drained.of_pending starved.pending empty).q1

theorem fg {taken : Label n} (starved : Starved s) (move : FgMove cfg s taken s') : Starved s' := by
  have phase := Phases.running_of_idle starved.writers move
  have pending := starved.pending.fg move
  have still : s'.closer = s.closer ∧ s'.s1 = s.s1 := by cases move <;> exact ⟨rfl, rfl⟩
  refine ⟨still.2 ▸ starved.stage1, pending, fun started => ?_, fun late => ?_⟩
  · rw [still.1] at started
    omega
  · rw [still.1] at late
    omega

theorem stage2 {taken : Label n} (starved : Starved s) (move : Stage2Move s taken s') :
    Starved s' := by
  have pending := starved.pending.stage2 move
  cases move <;> exact { starved with pending }

theorem closer {taken : Label n} (starved : Starved s) (move : CloserMove s taken s') :
    Starved s' := by
  have pending := starved.pending.closer move
  have q1_nil := starved.q1_nil
  obtain ⟨stage1, -, writers, drained⟩ := starved
  cases move with
  | close position idle => exact ⟨stage1, pending, fun _ => idle, by simp [Closer.phase]⟩
  | secondDrain position empty =>
    rw [position] at writers
    exact ⟨stage1, pending, fun _ => writers (by simp [Closer.phase]), fun _ => q1_nil empty⟩
  | @sweepLock err bucket p position alive free page enqueue =>
    rw [position] at writers
    refine ⟨stage1, pending, fun _ => writers (by simp [Closer.phase]), ?_⟩
    cases enqueue <;> simp [Engine.sweepAfter, Closer.phase]
  | disarm position | firstDrain position | sweepBucket position | sweepDone position
  | sweepFault position | partialInc position | partialPush position | fullInc position
  | fullEnter position | fullPush position | sweepUnlock position | sweepNextFault position
  | sweepNext position =>
    rw [position] at writers
    exact ⟨stage1, pending, fun _ => writers (by simp [Closer.phase]), by simp [Closer.phase]⟩
  -- Past the second drain nobody pushes any more.
  | stopping position | shutdown1 position | join1 position | shutdown2 position | join2 position
  | lastCheck position | destroy position | closeFd position =>
    rw [position] at writers drained
    exact ⟨stage1, pending, fun _ => writers (by simp [Closer.phase]), fun _ => drained (by simp [Closer.phase])⟩

theorem move (starved : Starved s) (move : StarvedMove cfg s s') : Starved s' := by
  cases move with
  | dies idle after =>
    subst after
    refine { starved with stage1 := .inr rfl, pending := ?_ }
    have pending := starved.pending
    simpa [Pending, Engine.outstanding, idle, Stage1.pages, Stage1.owing] using pending
  | fg move => exact starved.fg move
  | stage2 move => exact starved.stage2 move
  | closer move => exact starved.closer move

/-- Nobody takes a page out of Queue-1. -/
theorem q1_grows (move : StarvedMove cfg s s') : s.q1 <+: s'.q1 := by
  cases move with
  | dies idle after => rw [after]
  | fg move =>
    cases move with
    | partialPush => exact List.prefix_append _ _
    | _ => exact List.prefix_rfl
  | stage2 move => cases move <;> exact List.prefix_rfl
  | closer move =>
    cases move with
    | partialPush => exact List.prefix_append _ _
    | _ => exact List.prefix_rfl

/-- A page in Queue-1 keeps `nox_close` in one of its drains. -/
theorem held_up (starved : Starved s) (waiting : s.q1 ≠ []) :
    0 < s.pending ∧ s.closer.phase ≤ 4 := by
  constructor
  · exact Nat.pos_of_ne_zero fun empty => waiting (starved.q1_nil empty)
  · by_contra late
    exact waiting (starved.drained (by omega))

end Starved

/-- If Stage-1 has no scratch zone, then in every run, from the moment a page is in Queue-1 it
stays there: `pending` never reaches zero again, and `nox_close` never gets past its drains. -/
theorem starved_close_hangs
    (before : Run (starvedStep cfg) (fun _ _ => True) (Engine.init n cfg file scratch) s)
    (waiting : s.q1 ≠ []) (run : Run (starvedStep cfg) (fun _ _ => True) s s') :
    s.q1 <+: s'.q1 ∧ 0 < s'.pending ∧ s'.closer.phase ≤ 4 ∧ ∀ err, s'.closer ≠ .returned err := by
  have starved : Starved s := before.invariant Starved (.init cfg file scratch)
    fun starved _ stepped => starved.move (starvedMove_of_step stepped)
  obtain ⟨still, kept⟩ : Starved s' ∧ s.q1 <+: s'.q1 := by
    apply run.invariant fun s' => Starved s' ∧ s.q1 <+: s'.q1
    · exact ⟨starved, List.prefix_rfl⟩
    · rintro middle last label ⟨starved, kept⟩ - stepped
      have move := starvedMove_of_step stepped
      exact ⟨starved.move move, kept.trans (Starved.q1_grows move)⟩
  have nonempty : s'.q1 ≠ [] := fun empty => waiting (List.prefix_nil.mp (empty ▸ kept))
  obtain ⟨counted, early⟩ := still.held_up nonempty
  refine ⟨kept, counted, early, fun err closed => ?_⟩
  simp [closed, Closer.phase] at early

/-- The small write returns 0, and `nox_close` is left waiting in its first drain. -/
theorem starved_close_hangs_of_tiny :
    ∃ s s' : Engine 1,
      Run (starvedStep .standard) (fun _ _ => True) (Engine.init 1 .standard emptyFile fun _ => 0) s ∧
      s.q1 = [0] ∧ Run (starvedStep .standard) (fun _ _ => True) s s' ∧
      s'.closer = .firstDrain ∧ s'.ioErr = true ∧ 0 < s'.pending := by
  have wrote : ∃ s, Run (starvedStep .standard) (fun _ _ => True)
      (Engine.init 1 .standard emptyFile fun _ => 0) s ∧ s.q1 = [0] ∧
      (Run.follow (fun _ _ => true) (starvedStep .standard) s [none, some .close, some .closer]).any
        (fun s' => s'.closer = .firstDrain ∧ s'.ioErr = true) = true :=
    Run.exists_of_follow _ (fun _ _ => true) (tinyWrite.map some) (fun _ _ _ => trivial)
      (fun s : Engine 1 => s.q1 = [0] ∧
        (Run.follow (fun _ _ => true) (starvedStep .standard) s
          [none, some .close, some .closer]).any
            (fun s' => s'.closer = .firstDrain ∧ s'.ioErr = true) = true) (by decide +kernel)
  obtain ⟨s, before, waiting, goesOn⟩ := wrote
  have closing : ∃ s', Run (starvedStep .standard) (fun _ _ => True) s s' ∧
      s'.closer = .firstDrain ∧ s'.ioErr = true :=
    Run.exists_of_follow s (fun _ _ => true) [none, some .close, some .closer]
      (fun _ _ _ => trivial) (fun s' : Engine 1 => s'.closer = .firstDrain ∧ s'.ioErr = true) goesOn
  obtain ⟨s', run, drain, latched⟩ := closing
  have hangs := starved_close_hangs before (by simp [waiting]) run
  exact ⟨s, s', before, waiting, run, drain, latched, hangs.2.1⟩

end NoxDB

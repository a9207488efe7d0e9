import NoxDB.Watermark

/-! # Engines of one process

Every engine handle of a process shares the one gate of `watermark.c`: `nox_open` arms it
when its flusher runs, `nox_close` disarms it before anything else, `nox_write` passes it and
the flusher of each engine releases it.  Disarming is not counted per handle, so a gate is
armed while an engine is open exactly as long as no engine is closed beside an open one.
-/

namespace NoxDB

open Function (update)
open Library.Runs

variable {Thread : Type}

/-- What has become of an engine handle. -/
inductive Lifecycle where
  | absent
  /-- Inside `nox_open`, before the gate is armed. -/
  | opening
  /-- `nox_open` has armed the gate, which is the last thing it does; `nox_close` was not called. -/
  | opened
  /-- `nox_close` was called and has not yet disarmed the gate. -/
  | closing
  | draining
  | closed
deriving DecidableEq, Repr

/-- The engine has a flusher, which may free pages. -/
def Lifecycle.flushes : Lifecycle → Bool
  | .opened | .closing | .draining => true
  | _ => false

structure Process (Thread : Type) where
  gate : Gate Thread
  engine : Nat → Lifecycle

inductive ProcessLabel (Thread : Type) where
  | openStart (h : Nat)
  /-- `nox_open` returns `NULL`. -/
  | openFail (h : Nat)
  | openArm (h : Nat)
  /-- A writer of an open engine enters the gate. -/
  | write (h : Nat) (t : Thread)
  /-- A writer of an open engine allocates a page. -/
  | alloc (h : Nat)
  /-- An engine frees a page. -/
  | free (h : Nat)
  | spurious (t : Thread)
  | resume (t : Thread)
  | closeCall (h : Nat)
  | closeDisarm (h : Nat)
  | closeReturn (h : Nat)

namespace Process

def init : Process Thread where
  gate := .init
  engine := fun _ => .absent

/-- Engine `h` moves on from `before` to `after` while the gate takes a step. -/
def advance (p : Process Thread) (h : Nat) (before after : Lifecycle)
    (gate : Option (Gate Thread)) : Option (Process Thread) :=
  if p.engine h = before then
    gate.map fun gate => { gate, engine := update p.engine h after }
  else
    none

/-- The gate takes a step that no engine's lifecycle depends on. -/
def only (p : Process Thread) (gate : Option (Gate Thread)) : Option (Process Thread) :=
  gate.map fun gate => { p with gate }

variable [DecidableEq Thread]

def step (cfg : Config) (p : Process Thread) : ProcessLabel Thread → Option (Process Thread)
  | .openStart h => p.advance h .absent .opening (some p.gate)
  | .openFail h => p.advance h .opening .absent (some p.gate)
  | .openArm h => p.advance h .opening .opened (p.gate.step cfg .arm)
  | .write h t => p.advance h .opened .opened (p.gate.step cfg (.wait t))
  | .alloc h => p.advance h .opened .opened (p.gate.step cfg .noteAlloc)
  | .free h => if (p.engine h).flushes then p.only (p.gate.step cfg .noteFree) else none
  | .spurious t => p.only (p.gate.step cfg (.spurious t))
  | .resume t => p.only (p.gate.step cfg (.resume t))
  | .closeCall h => p.advance h .opened .closing (some p.gate)
  | .closeDisarm h => p.advance h .closing .draining (p.gate.step cfg .disarm)
  | .closeReturn h => p.advance h .draining .closed (some p.gate)

end Process

/-- The gate is armed while an engine is open. -/
def Backpressured (p : Process Thread) : Prop :=
  (∃ h, p.engine h = .opened) → p.gate.watermark.armed = true

/-- `nox_close` disarms the gate only when no engine is open. -/
def ClosesLast (p : Process Thread) : ProcessLabel Thread → Prop
  | .closeDisarm _ => ∀ h, p.engine h ≠ .opened
  | _ => True

section

variable [DecidableEq Thread] {cfg : Config} {p p' : Process Thread} {label : ProcessLabel Thread}

omit [DecidableEq Thread] in
theorem Process.advance_some {h : Nat} {before after : Lifecycle} {gate : Option (Gate Thread)}
    (stepped : p.advance h before after gate = some p') :
    p.engine h = before ∧ p'.engine = update p.engine h after ∧ gate = some p'.gate := by
  unfold Process.advance at stepped
  split at stepped
  · next here =>
    obtain ⟨g, gateStep, rfl⟩ := Option.map_eq_some_iff.mp stepped
    exact ⟨here, rfl, gateStep⟩
  · contradiction

omit [DecidableEq Thread] in
theorem Process.only_some {gate : Option (Gate Thread)} (stepped : p.only gate = some p') :
    p'.engine = p.engine ∧ gate = some p'.gate := by
  obtain ⟨g, gateStep, rfl⟩ := Option.map_eq_some_iff.mp stepped
  exact ⟨rfl, gateStep⟩

/-- Only arming and disarming change whether the gate is armed. -/
theorem GateMove.armed {g g' : Gate Thread} {label : GateLabel Thread}
    (move : GateMove cfg g label g') :
    g'.watermark.armed = g.watermark.armed ∨ label = .arm ∧ g'.watermark.armed = true ∨
      label = .disarm ∧ g'.watermark.armed = false := by
  cases move with
  | arm => exact .inr (.inl ⟨rfl, rfl⟩)
  | disarm => exact .inr (.inr ⟨rfl, rfl⟩)
  | _ => exact .inl rfl

/-- An engine is opened by arming the gate. -/
theorem Process.opened_cases (stepped : p.step cfg label = some p') :
    (∃ h, label = .openArm h ∧ p'.gate.watermark.armed = true) ∨
    (∃ h, label = .closeDisarm h ∧ p'.gate.watermark.armed = false ∧
      ∀ h', p'.engine h' = .opened ↔ p.engine h' = .opened) ∨
    (p'.gate.watermark.armed = p.gate.watermark.armed ∧ (∀ h, label ≠ .closeDisarm h) ∧
      ∀ h', p'.engine h' = .opened → p.engine h' = .opened) := by
  -- The state of one engine changes and the others stay.
  have others : ∀ {h : Nat} {after : Lifecycle},
      (after = .opened → p.engine h = .opened) → p'.engine = update p.engine h after →
      ∀ h', p'.engine h' = .opened → p.engine h' = .opened := by
    intro h after kept engines h' opened
    rw [engines] at opened
    by_cases same : h' = h
    · subst same
      exact kept (by simpa using opened)
    · simpa [same] using opened
  cases label with
  | openArm h =>
    obtain ⟨-, -, gate⟩ := Process.advance_some stepped
    left
    refine ⟨h, rfl, ?_⟩
    rw [← Option.some.inj gate]
    rfl
  | closeDisarm h =>
    obtain ⟨here, engines, gate⟩ := Process.advance_some stepped
    right; left
    refine ⟨h, rfl, ?_, fun h' => ⟨others (by simp) engines h', fun opened => ?_⟩⟩
    · rw [← Option.some.inj gate]
      rfl
    · rw [engines]
      by_cases same : h' = h
      · subst same
        simp [here] at opened
      · simpa [same] using opened
  | openStart h | openFail h | closeCall h | closeReturn h =>
    obtain ⟨here, engines, gate⟩ := Process.advance_some stepped
    right; right
    exact ⟨by rw [← Option.some.inj gate], by simp, others (by simp) engines⟩
  | free h =>
    simp only [Process.step] at stepped
    split at stepped
    · obtain ⟨engines, gate⟩ := Process.only_some stepped
      right; right
      refine ⟨?_, by simp, fun h' opened => engines ▸ opened⟩
      simpa using (Gate.move_of_step gate).armed
    · contradiction
  | write h t | alloc h =>
    obtain ⟨here, engines, gate⟩ := Process.advance_some stepped
    right; right
    refine ⟨?_, by simp, others (by simp [here]) engines⟩
    simpa using (Gate.move_of_step gate).armed
  | spurious t | resume t =>
    obtain ⟨engines, gate⟩ := Process.only_some stepped
    right; right
    refine ⟨?_, by simp, fun h' opened => engines ▸ opened⟩
    simpa using (Gate.move_of_step gate).armed

theorem Backpressured.step (holds : Backpressured p) (closes : ClosesLast p label)
    (stepped : p.step cfg label = some p') : Backpressured p' := by
  rintro ⟨h, opened⟩
  rcases Process.opened_cases stepped with
    ⟨-, -, armed⟩ | ⟨h', rfl, -, same⟩ | ⟨same, -, before⟩
  · exact armed
  · exact absurd ((same h).mp opened) (closes h)
  · exact same.trans (holds ⟨h, before h opened⟩)

/-- Along a run of any number of engines, the gate is armed in every state in which an engine is
open if and only if no `nox_close` of the run disarms it while an engine is open. -/
theorem armed_while_open_iff :
    Run (Process.step cfg) ClosesLast Process.init p ↔
      Run (Process.step cfg)
        (fun p label => ∀ next, p.step cfg label = some next → Backpressured next)
        Process.init p := by
  constructor
  · intro run
    have initially : Backpressured (Process.init : Process Thread) := by
      simp [Backpressured, Process.init]
    have strengthened := run.strengthen Backpressured
      (fun p label => ∀ next, p.step cfg label = some next → Backpressured next)
      initially (fun holds closes stepped => holds.step closes stepped)
      (fun holds closes _ _ stepped => holds.step closes stepped)
    exact strengthened.weaken fun _ _ both => both.2
  · intro run
    have strengthened := run.strengthen (fun _ => True) ClosesLast trivial
      (fun _ _ _ => trivial) fun {state label next} _ kept stepped => by
        have holds := kept next stepped
        rcases Process.opened_cases stepped with
          ⟨h, rfl, -⟩ | ⟨h, rfl, disarmed, same⟩ | ⟨-, other, -⟩
        · trivial
        · -- A gate disarmed beside an open engine would break the property at once.
          intro h' opened
          simp [holds ⟨h', (same h').mpr opened⟩] at disarmed
        · cases label with
          | closeDisarm h => exact absurd rfl (other h)
          | _ => trivial
    exact strengthened.weaken fun _ _ both => both.2

end

/-- Two engines are opened and the first is closed: the second one is open at a disarmed gate. -/
theorem armed_while_open_second :
    ∃ p : Process (Fin 1), Run (Process.step .standard) (fun _ _ => True) Process.init p ∧
      p.engine 1 = .opened ∧ p.gate.watermark.armed = false := by
  exact Run.exists_of_follow (Process.init : Process (Fin 1)) (fun _ _ => true)
    [.openStart 0, .openArm 0, .openStart 1, .openArm 1, .closeCall 0, .closeDisarm 0]
    (fun _ _ _ => trivial)
    (fun p => p.engine 1 = .opened ∧ p.gate.watermark.armed = false) (by decide)

end NoxDB

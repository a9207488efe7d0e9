import NoxDB.Engine.Backpressure
import NoxDB.Engine.MemorySafety
import NoxDB.Queue

/-! # The notice about a deep queue

`warn_if_deep`, which every push of a writer and of the sweep is followed by, beside the engine:
it reads the depth of the queue, and if that is not below `mark` (`NOX_QUEUE_WARN_DEPTH`, which is
4096) it sets the flag `deep_noticed` and, if nobody had set it, prints.  Other threads move between
any two of these.  The notice is printed at most once, and what it says of the gate was so when the
depth was read.
-/

namespace NoxDB

open Function (update)
open Library.Runs

variable {n : Nat}

/-- What was printed, with the gate as it was when the depth was read. -/
structure Notice where
  queue : QueueId
  depth : Nat
  /-- The first of the two texts: the gate throttles the writers. -/
  throttling : Bool
  found : Watermark

/-- Positions in `warn_if_deep`. -/
inductive WarnPc where
  | outside
  | readDepth (q : QueueId)
  | testAndSet (q : QueueId) (depth : Nat) (found : Watermark)

structure Noticing (n : Nat) where
  engine : Engine n
  warn : Owner n → WarnPc
  deepNoticed : Bool
  printed : List Notice

inductive NoticingLabel (n : Nat) where
  | engine (label : Label n)
  | warn (o : Owner n)

/-- The queue that the step pushes to in `otflush_enqueue_partial` or `otflush_enqueue_full`. -/
def Engine.enqueues (s : Engine n) : Label n → Option QueueId
  | .fg t =>
    match s.fg t with
    | .scrap _ _ (.enqueue _ .partialPush _) => some .q1
    | .scrap _ _ (.enqueue _ .fullPush _) => some .q2
    | _ => none
  | .closer =>
    match s.closer with
    | .sweepEnqueue _ _ _ .partialPush => some .q1
    | .sweepEnqueue _ _ _ .fullPush => some .q2
    | _ => none
  | _ => none

def Engine.queue (s : Engine n) : QueueId → List PageId
  | .q1 => s.q1
  | .q2 => s.q2

namespace Noticing

def openAt (cfg : Config) (file : File) (scratch : Nat → UInt8) (live : Nat) : Noticing n where
  engine := .openAt n cfg file scratch live
  warn := fun _ => .outside
  deepNoticed := false
  printed := []

/-- `warn_if_deep` -/
def warnStep (mark : Nat) (cfg : Config) (s : Noticing n) (o : Owner n) : Option (Noticing n) :=
  match s.warn o with
  | .outside => none
  | .readDepth q =>
    let d := (s.engine.queue q).length
    if d < mark then some { s with warn := update s.warn o .outside }
    else some { s with warn := update s.warn o (.testAndSet q d s.engine.watermark) }
  | .testAndSet q d found =>
    if s.deepNoticed then some { s with warn := update s.warn o .outside }
    else
      some { s with
        warn := update s.warn o .outside
        deepNoticed := true
        printed := s.printed ++ [{ queue := q, depth := d, throttling := cfg.high ≤ d, found }] }

/-- A thread inside `warn_if_deep` makes no step of the engine. -/
def step (mark : Nat) (cfg : Config) (s : Noticing n) : NoticingLabel n → Option (Noticing n)
  | .engine label =>
    match label.owner with
    | none => (s.engine.step cfg label).map fun engine => { s with engine }
    | some o =>
      match s.warn o with
      | .outside =>
        (s.engine.step cfg label).map fun engine =>
          { s with
            engine
            warn :=
              match s.engine.enqueues label with
              | some q => update s.warn o (.readDepth q)
              | none => s.warn }
      | _ => none
  | .warn o => s.warnStep mark cfg o

/-- A step is one of the engine, which may send its thread into `warn_if_deep`, or one of
`warn_if_deep`. -/
theorem cases_of_step {mark : Nat} {cfg : Config} {s s' : Noticing n} {label : NoticingLabel n}
    (stepped : s.step mark cfg label = some s') :
    (∃ own, s.engine.step cfg own = some s'.engine ∧ s'.deepNoticed = s.deepNoticed ∧
      s'.printed = s.printed ∧
      ∀ o, s'.warn o = s.warn o ∨ ∃ q, s'.warn o = .readDepth q) ∨
    s'.engine = s.engine ∧ ∃ o, s.warnStep mark cfg o = some s' := by
  cases label with
  | warn o =>
    refine .inr ⟨?_, o, stepped⟩
    simp only [step, warnStep] at stepped
    split at stepped
    · contradiction
    · split at stepped <;> (cases stepped; rfl)
    · split at stepped <;> (cases stepped; rfl)
  | engine own =>
    left
    simp only [step] at stepped
    split at stepped
    · obtain ⟨engine, moved, rfl⟩ := Option.map_eq_some_iff.mp stepped
      exact ⟨own, moved, rfl, rfl, fun o => .inl rfl⟩
    · next o owner =>
      split at stepped
      · obtain ⟨engine, moved, rfl⟩ := Option.map_eq_some_iff.mp stepped
        refine ⟨own, moved, rfl, rfl, fun u => ?_⟩
        split
        · next q pushes =>
          by_cases same : u = o
          · subst same
            exact .inr ⟨q, by simp⟩
          · exact .inl (by simp [same])
        · exact .inl rfl
      · contradiction

end Noticing

/-- A depth past the mark that was read while at least as many pages were live. -/
def Deep (mark depth : Nat) (found : Watermark) : Prop := mark ≤ depth ∧ depth ≤ found.live

structure Truthful (mark : Nat) (cfg : Config) (s : Noticing n) : Prop where
  pending : ∀ o q depth found, s.warn o = .testAndSet q depth found → Deep mark depth found
  printed : ∀ notice ∈ s.printed, Deep mark notice.depth notice.found ∧
    notice.throttling = decide (cfg.high ≤ notice.depth)
  once : s.printed.length = if s.deepNoticed then 1 else 0

variable {cfg : Config} {file : File} {scratch : Nat → UInt8} {mark before : Nat}

/-- A queue holds live pages only, each of them once. -/
theorem queue_le_live {s : Engine n} (sound : Sound cfg s) (level : Level before s) (q : QueueId) :
    (s.queue q).length ≤ s.watermark.live := by
  have nodup : (s.queue q).Nodup := by
    cases q with
    | q1 => exact sound.queues_nodup.of_append_left
    | q2 => exact sound.queues_nodup.of_append_right
  have alive : s.queue q ⊆ s.alive := by
    intro p member
    refine mem_alive.mpr (alive_of_queued sound ?_)
    cases q with
    | q1 => exact .inl member
    | q2 => exact .inr (.inl member)
  have fewer := (nodup.subperm alive).length_le
  rw [level]
  omega

namespace Truthful

theorem warnStep {s s' : Noticing n} {o : Owner n} (truthful : Truthful mark cfg s)
    (sound : Sound cfg s.engine) (level : Level before s.engine)
    (stepped : s.warnStep mark cfg o = some s') : Truthful mark cfg s' := by
  -- The thread leaves, or it goes on with what it read.
  have others : ∀ {pc : WarnPc}, (∀ q depth found, pc = .testAndSet q depth found →
      Deep mark depth found) → ∀ u q depth found, update s.warn o pc u = .testAndSet q depth found →
      Deep mark depth found := by
    intro pc own u q depth found position
    by_cases same : u = o
    · subst same
      exact own q depth found (by simpa using position)
    · exact truthful.pending u q depth found (by simpa [same] using position)
  simp only [Noticing.warnStep] at stepped
  split at stepped
  · contradiction
  · next q reads =>
    split at stepped
    · cases stepped
      exact { truthful with pending := others (by simp) }
    · next deep =>
      cases stepped
      refine { truthful with pending := others ?_ }
      rintro r depth found ⟨⟩
      exact ⟨Nat.not_lt.mp deep, queue_le_live sound level q⟩
  · next q depth found position =>
    split at stepped
    · cases stepped
      exact { truthful with pending := others (by simp) }
    · next first =>
      cases stepped
      refine ⟨others (by simp), fun notice member => ?_, ?_⟩
      · rcases List.mem_append.mp member with old | new
        · exact truthful.printed notice old
        · obtain rfl := List.mem_singleton.mp new
          exact ⟨truthful.pending o q depth found position, rfl⟩
      · have none := truthful.once
        rw [if_neg first] at none
        simp [none]

theorem step {s s' : Noticing n} {label : NoticingLabel n} (truthful : Truthful mark cfg s)
    (sound : Sound cfg s.engine) (level : Level before s.engine)
    (stepped : s.step mark cfg label = some s') : Truthful mark cfg s' := by
  rcases Noticing.cases_of_step stepped with ⟨own, -, noticed, printed, warn⟩ | ⟨-, o, stepped⟩
  · refine ⟨fun o q depth found position => ?_, by rw [printed]; exact truthful.printed,
      by rw [printed, noticed]; exact truthful.once⟩
    rcases warn o with same | ⟨r, reads⟩
    · exact truthful.pending o q depth found (same ▸ position)
    · rw [reads] at position
      cases position
  · exact truthful.warnStep sound level stepped

end Truthful

/-- The notice is printed at most once, however many threads push and in whatever order.  The
depth it gives is not below the mark, and at least as many pages were live when it was read.  So
when it says that the gate throttles the writers, the level was at the high mark; when it says that
nothing bounds the queue, the high mark is beyond that depth, and a build whose high mark is not
above `mark` never says so. -/
theorem notice_once_and_true
    (run : Run (Noticing.step mark cfg) (fun _ _ => True)
      (Noticing.openAt cfg file scratch before) (s : Noticing n)) :
    s.printed.length ≤ 1 ∧ ∀ notice ∈ s.printed,
      mark ≤ notice.depth ∧ notice.depth ≤ notice.found.live ∧
      (notice.throttling = true → cfg.high ≤ notice.found.live) ∧
      (notice.throttling = false → notice.depth < cfg.high) ∧
      (cfg.high ≤ mark → notice.throttling = true) := by
  have all : Sound cfg s.engine ∧ Level before s.engine ∧ Truthful mark cfg s := by
    apply run.invariant fun s => Sound cfg s.engine ∧ Level before s.engine ∧ Truthful mark cfg s
    · refine ⟨.openAt cfg file scratch before, .openAt cfg file scratch before, ?_⟩
      constructor <;> simp [Noticing.openAt]
    · rintro middle last label ⟨sound, level, truthful⟩ - stepped
      have after := truthful.step sound level stepped
      rcases Noticing.cases_of_step stepped with ⟨own, moved, -⟩ | ⟨same, -⟩
      · have move := move_of_step moved
        exact ⟨sound.move move, level.step sound move, after⟩
      · rw [same]
        exact ⟨sound, level, after⟩
  obtain ⟨-, -, truthful⟩ := all
  refine ⟨?_, fun notice member => ?_⟩
  · rw [truthful.once]
    split <;> simp
  · obtain ⟨⟨deep, live⟩, text⟩ := truthful.printed notice member
    rw [text]
    simp only [decide_eq_true_eq, decide_eq_false_iff_not]
    exact ⟨deep, live, fun high => high.trans live, Nat.not_le.mp, fun low => low.trans deep⟩

/-- With the marks at one page, the first push makes the notice. -/
theorem notice_once_and_true_of_first :
    ∃ s : Noticing 1, Run (Noticing.step 1 .narrow) (fun _ _ => True)
        (Noticing.openAt .narrow emptyFile (fun _ => 0) 0) s ∧
      ∃ notice, s.printed = [notice] ∧ notice.throttling = true ∧ 1 ≤ notice.found.live := by
  obtain ⟨s, run, one, throttling⟩ :
      ∃ s : Noticing 1, Run (Noticing.step 1 .narrow) (fun _ _ => True)
        (Noticing.openAt .narrow emptyFile (fun _ => 0) 0) s ∧ s.printed.length = 1 ∧
        s.printed.all (fun notice => notice.throttling) = true :=
    Run.exists_of_follow (Noticing.openAt .narrow emptyFile (fun _ => 0) 0) (fun _ _ => true)
      (tinyWrite.dropLast.map NoticingLabel.engine ++ [.warn (.fg 0), .warn (.fg 0)])
      (fun _ _ _ => trivial)
      (fun s : Noticing 1 => s.printed.length = 1 ∧
        s.printed.all (fun notice => notice.throttling) = true) (by decide +kernel)
  obtain ⟨notice, printed⟩ := List.length_eq_one_iff.mp one
  have text : notice.throttling = true := by simpa [printed] using throttling
  have true_ := (notice_once_and_true run).2 notice (by simp [printed])
  exact ⟨s, run, notice, printed, text, true_.2.2.1 text⟩

end NoxDB

import NoxDB.Engine.Closing
import NoxDB.Library.Runs

/-! # Reachable states are sound

The invariants that hold whatever the writers, the device and the allocator do, as
one structure, proved for every reachable state.
-/

namespace NoxDB

open Library.Runs
open Library.Locks
open Library.Counting

variable {n : Nat}

structure Sound (cfg : Config) (s : Engine n) : Prop where
  owned : s.custody.Ownership
  load : Load s
  ready : Ready cfg s
  pending : Pending s
  guard : Guard s
  phases : Phases s
  walk : Walk s

variable {cfg : Config} {s s' : Engine n} {label : Label n}

theorem Custody.Ownership.init (cfg : Config) (file : File) (scratch : Nat → UInt8) :
    (Engine.init n cfg file scratch).custody.Ownership := by
  have role : ∀ o, (Engine.init n cfg file scratch).custody.role o = .none := fun o => by
    cases o <;> rfl
  have empty : (Engine.init n cfg file scratch).custody.pipe = [] := rfl
  have nobody : ∀ p, ¬ Pushing (Engine.init n cfg file scratch).custody.role p := by
    rintro p ⟨o, e, pushes⟩
    simp [role] at pushes
  exact
    { nodup := by simp [empty]
      live := by simp [empty]
      flushing := by simp [Engine.custody, Engine.init, Stage2.tagged]
      tagged := by simp [Engine.custody, Engine.init, scrapPageAlloc]
      unlinked := by simp [Engine.custody, Engine.init]
      queued := fun p => by
        simp only [nobody, or_false]
        simp [Custody.waiting, Engine.custody, Engine.init, scrapPageAlloc, Stage2.unlinked,
          Stage2.kept, Stage1.pages]
      locked := fun p o => by
        simp only [role]
        simp [Engine.custody, Engine.init, Role.held]
      rights := fun o => by rw [role]; trivial
      sharded := fun k t => by
        simp only [role]
        simp [Engine.custody, Engine.init, gate]
      indexed := by simp [Engine.custody, Engine.init]
      chain := by simp [Engine.custody, Engine.init]
      single := by simp [Engine.custody, Engine.init]
      address := fun p q alive => by simp [Custody.Alive, Engine.custody, Engine.init] at alive
      detached := by simp [Engine.custody, Engine.init, scrapPageAlloc]
      unborn := by simp [Engine.custody, Engine.init] }

theorem Sound.init (cfg : Config) (file : File) (scratch : Nat → UInt8) :
    Sound cfg (Engine.init n cfg file scratch) where
  owned := .init cfg file scratch
  load := .init cfg file scratch
  ready := .init cfg file scratch
  pending := .init cfg file scratch
  guard := .init cfg file scratch
  phases := .init cfg file scratch
  walk := .of_elsewhere rfl

/-- The engine refines the custody protocol. -/
theorem Sound.refines (sound : Sound cfg s) (move : Move cfg s label s') :
    s'.custody = s.custody ∨ s.custody.Step s'.custody := by
  cases move with
  | fg move => exact refines_fg sound.owned move
  | stage1 move => exact refines_stage1 sound.load move
  | stage2 move => exact refines_stage2 sound.load sound.ready sound.owned move
  | closer move => exact refines_closer sound.owned (swept_of sound.walk sound.phases) move

/-- Stage-1 has only pages that exist. -/
theorem Sound.hand_lt_created (sound : Sound cfg s) {p : PageId} (hand : p ∈ s.s1.pages) :
    p < s.created := by
  have waits : p ∈ s.custody.waiting := by simp [Custody.waiting, Engine.custody, hand]
  exact (sound.owned.live p (Custody.mem_pipe_of_waiting waits)).1

theorem Sound.kept_lt_created (sound : Sound cfg s) {p : PageId} (kept : p ∈ s.s2.kept) :
    p < s.created := by
  have waits : p ∈ s.custody.waiting := by simp [Custody.waiting, Engine.custody, kept]
  exact (sound.owned.live p (Custody.mem_pipe_of_waiting waits)).1

/-- No page is in the queues twice. -/
theorem Sound.queues_nodup (sound : Sound cfg s) : (s.q1 ++ s.q2).Nodup := by
  have pipe : (s.s2.tagged ++ (s.s2.unlinked.toList ++ (s.s2.kept ++ s.q2) ++
      (s.s1.pages ++ s.q1))).Nodup := sound.owned.nodup
  refine List.nodup_append_comm.mp (pipe.sublist ?_)
  refine (List.Sublist.append ?_ (List.sublist_append_right _ _)).trans
    (List.sublist_append_right _ _)
  exact (List.sublist_append_right _ _).trans (List.sublist_append_right _ _)

theorem Sound.owned_step (sound : Sound cfg s) (move : Move cfg s label s') :
    s'.custody.Ownership := by
  rcases sound.refines move with same | step
  · exact same ▸ sound.owned
  · exact sound.owned.step step

theorem Sound.move (sound : Sound cfg s) (move : Move cfg s label s') : Sound cfg s' := by
  have owned := sound.owned_step move
  have swept := swept_of sound.walk sound.phases
  cases move with
  | fg move =>
    have closer : s'.closer = s.closer := by cases move <;> rfl
    exact
      { owned
        load := sound.load.fg move
        ready := sound.ready.fg sound.owned move
        pending := sound.pending.fg move
        guard := sound.guard.fg sound.owned move
        phases := sound.phases.fg move
        walk := .of_elsewhere
          (closer ▸ Closer.bucket_of_running (sound.phases.running move)) }
  | stage1 move =>
    exact
      { owned
        load := sound.load.stage1 move
        ready := sound.ready.stage1 move
        pending := sound.pending.stage1 move
        guard := sound.guard.stage1 sound.owned sound.load move
        phases := sound.phases.stage1 move
        walk := sound.walk.stage1 sound.load move }
  | stage2 move =>
    exact
      { owned
        load := sound.load.stage2 move
        ready := sound.ready.stage2 move
        pending := sound.pending.stage2 move
        guard := sound.guard.stage2 sound.owned sound.load sound.ready move
        phases := sound.phases.stage2 move
        walk := sound.walk.stage2 sound.load sound.ready sound.owned move }
  | closer move =>
    exact
      { owned
        load := sound.load.closer move
        ready := sound.ready.closer (fun err bucket p position free =>
          idle_of_unqueued sound.owned (swept.current err bucket p position).2 free) move
        pending := sound.pending.closer move
        guard := sound.guard.closer sound.owned swept move
        phases := sound.phases.closer move
        walk := sound.walk.closer sound.owned sound.pending move }

/-- `s` is a state the engine can reach over a file. -/
abbrev Reachable (cfg : Config) (file : File) (scratch : Nat → UInt8) (s : Engine n) : Prop :=
  Run (Engine.step cfg) (fun _ _ => True) (Engine.init n cfg file scratch) s

theorem sound_of_run {condition : Engine n → Label n → Prop} {file : File} {scratch : Nat → UInt8}
    (run : Run (Engine.step cfg) condition (Engine.init n cfg file scratch) s) : Sound cfg s :=
  run.invariant (Sound cfg) (.init cfg file scratch) fun sound _ stepped =>
    sound.move (move_of_step stepped)

/-- What evaluating a list of labels shows of the state it ends in holds of a state at the end
of a run, when those of the labels that pass a test meet the condition. -/
theorem exists_run_among (cfg : Config) (file : File) (scratch : Nat → UInt8)
    {condition : Engine n → Label n → Prop} (test : Engine n → Label n → Bool)
    (labels : List (Label n))
    (sufficient : ∀ s, ∀ label ∈ labels, test s label = true → condition s label)
    (shows : Engine n → Prop) [DecidablePred shows]
    (followed : (Run.follow test (Engine.step cfg) (Engine.init n cfg file scratch) labels).any
      (fun s => shows s) = true) :
    ∃ s, Run (Engine.step cfg) condition (Engine.init n cfg file scratch) s ∧ shows s :=
  Run.exists_of_follow_among _ test labels sufficient shows followed

theorem exists_run (cfg : Config) (file : File) (scratch : Nat → UInt8)
    {condition : Engine n → Label n → Prop} (test : Engine n → Label n → Bool)
    (sufficient : ∀ s label, test s label = true → condition s label) (labels : List (Label n))
    (shows : Engine n → Prop) [DecidablePred shows]
    (followed : (Run.follow test (Engine.step cfg) (Engine.init n cfg file scratch) labels).any
      (fun s => shows s) = true) :
    ∃ s, Run (Engine.step cfg) condition (Engine.init n cfg file scratch) s ∧ shows s :=
  exists_run_among cfg file scratch test labels (fun s label _ => sufficient s label) shows followed

theorem exists_reachable (cfg : Config) (file : File) (scratch : Nat → UInt8)
    (labels : List (Label n)) (shows : Engine n → Prop) [DecidablePred shows]
    (followed : (Run.follow (fun _ _ => true) (Engine.step cfg) (Engine.init n cfg file scratch)
      labels).any (fun s => shows s) = true) :
    ∃ s, Reachable cfg file scratch s ∧ shows s :=
  exists_run cfg file scratch _ (fun _ _ _ => trivial) labels shows followed

end NoxDB

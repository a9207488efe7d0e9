import NoxDB.Engine.Device

/-! # Drain accounting

`otflush_drain` waits for `pending` to reach zero.  `pending` is at all times the number
of pages that were counted in and not yet counted out, so a drain that no writer disturbs
finds the queues and the hands of both stages empty; they then leave the index alone, and
if no error was latched there is nothing left to write.
-/

namespace NoxDB

open Function (update)
open Library.Runs

variable {n : Nat} {cfg : Config} {file : File} {scratch : Nat → UInt8} {s s' : Engine n}
  {label : Label n}

/-- No foreground call is in progress and `nox_close` is not walking the index. -/
def Quiet (s : Engine n) : Prop := (∀ t, s.fg t = .idle) ∧ s.closer.bucket = none

/-- The step is one of Stage-1 or Stage-2. -/
def Label.isStage : Label n → Bool
  | .stage1 | .pread _ | .stage2 | .pwritev _ => true
  | _ => false

theorem Quiet.role (quiet : Quiet s) (o : Owner n) : s.custody.role o = .none := by
  cases o with
  | fg t => simp [Engine.custody, quiet.1 t, Fg.role]
  | closer =>
    have elsewhere := quiet.2
    change s.closer.role = .none
    cases position : s.closer <;> simp_all [Closer.bucket, Closer.role]

/-- The queues are empty and the stages have no page and owe nothing to `pending`. -/
structure Drained (s : Engine n) : Prop where
  q1 : s.q1 = []
  q2 : s.q2 = []
  hand : s.s1.pages = []
  batch : s.s2.pages = []
  paid1 : s.s1.owing = 0
  paid2 : s.s2.owing = 0

theorem Drained.of_pending (pending : Pending s) (drained : s.pending = 0) : Drained s := by
  have nothing : s.outstanding = 0 := pending.symm.trans drained
  simp only [Engine.outstanding, Nat.add_eq_zero_iff, List.length_eq_zero_iff] at nothing
  obtain ⟨⟨⟨⟨⟨⟨batch, q2⟩, hand⟩, q1⟩, -⟩, paid1⟩, paid2⟩ := nothing
  exact { q1, q2, hand, batch, paid1, paid2 }

/-- A stage that has nothing stays that way and leaves the index alone. -/
theorem Drained.stage (drained : Drained s) (move : Move cfg s label s')
    (stage : label.isStage = true) : Drained s' ∧ s'.buckets = s.buckets := by
  obtain ⟨q1, q2, hand, batch, paid1, paid2⟩ := drained
  cases move with
  | fg move => cases move <;> simp [Label.isStage] at stage
  | closer move => cases move <;> simp [Label.isStage] at stage
  | stage1 move =>
    cases move with
    | pop _ queue => simp [q1] at queue
    | exit | wake => exact ⟨⟨q1, q2, rfl, batch, rfl, paid2⟩, rfl⟩
    | dropDec position => simp [position, Stage1.owing] at paid1
    | inspectFull position | inspectBusy position | inspectHoles position | forwardEnter position
    | forwardPush position | busyPush position | guardPass position | readStart position
    | readEnd position | readFailed position | fill position | drop position | fillEnter position
    | fillPush position | preadOk position | preadFail position =>
      simp [position, Stage1.pages] at hand
  | stage2 move =>
    cases move with
    | pop _ queue | collectTake _ _ queue => simp [q2] at queue
    | leave position | decrement position => simp [position, Stage2.owing] at paid2
    | poppedBusy position | poppedGo position | busyPush position | checkReady position
    | checkNotReady position | pushBack position | unlinkSkip position | unlink position
    | tag position | free position =>
      simp [position, Stage2.pages, Stage2.tagged, Stage2.unlinked, Stage2.kept] at batch
    | pwritev position fits after outcome =>
      refine ⟨⟨q1, q2, hand, ?_, paid1, ?_⟩, rfl⟩ <;>
        cases after <;>
        simp_all [afterPwritev, Stage2.pages, Stage2.tagged, Stage2.unlinked, Stage2.kept,
          Stage2.owing]
    | exit | wake | freeDone => exact ⟨⟨q1, q2, hand, rfl, paid1, rfl⟩, rfl⟩
    | collectStop position | detachDone position | writeStart position | written position
    | latch position =>
      refine ⟨⟨q1, q2, hand, ?_, paid1, rfl⟩, rfl⟩
      simpa [position, Stage2.pages, Stage2.tagged, Stage2.unlinked, Stage2.kept] using batch

/-- From a drained state the stages alone never touch the index. -/
theorem Drained.buckets_of_run (drained : Drained s)
    (run : Run (Engine.step cfg) (fun _ label => label.isStage = true) s s') :
    s'.buckets = s.buckets := by
  have both : Drained s' ∧ s'.buckets = s.buckets := by
    apply run.invariant fun s' => Drained s' ∧ s'.buckets = s.buckets
    · exact ⟨drained, rfl⟩
    · rintro middle last label ⟨drained, same⟩ stage stepped
      obtain ⟨still, kept⟩ := drained.stage (move_of_step stepped) stage
      exact ⟨still, kept.trans same⟩
  exact both.2

/-! ## Runs without an error -/

theorem recorded_of_run (reached : Reachable cfg file scratch s) (clean : s.ioErr = false) :
    (∀ p, ¬ s.custody.Stranded p) ∧ Recorded s := by
  have cleanRun := reached.backward (fun s => s.ioErr = false) clean fun stepped clean =>
    ioErr_mono (move_of_step stepped) clean
  have all : Sound cfg s ∧ (∀ p, ¬ s.custody.Stranded p) ∧ Recorded s := by
    apply cleanRun.invariant fun s => Sound cfg s ∧ (∀ p, ¬ s.custody.Stranded p) ∧ Recorded s
    · refine ⟨.init cfg file scratch, fun p stranded => ?_, .init cfg file scratch⟩
      simpa [Custody.Alive, Engine.custody, Engine.init] using stranded.alive
    · rintro middle last label ⟨sound, present, recorded⟩ ⟨-, clean⟩ stepped
      have move := move_of_step stepped
      have clean := clean last stepped
      exact ⟨sound.move move, unstranded_step sound move present clean,
        recorded.step sound present move clean⟩
  exact all.2

/-- When nothing is counted and no call is in progress, every page is on the device. -/
theorem settled_of_drained (reached : Reachable cfg file scratch s) (quiet : Quiet s)
    (empty : s.pending = 0) (clean : s.ioErr = false) :
    (∀ b, s.buckets b = []) ∧ ∀ p < s.created, Written s p ∧ s.freed p = true := by
  have sound := sound_of_run reached
  obtain ⟨present, recorded⟩ := recorded_of_run reached clean
  -- Nothing is queued and nobody carries a page, so nothing is alive.
  have dead : ∀ p, ¬ s.custody.Alive p := fun p alive => present p
    { alive
      outside := by simp [Walk.pipe_nil_of_drained sound.pending empty]
      alone := fun o => by simp [quiet.role o, Role.carried] }
  constructor
  · intro b
    exact List.eq_nil_iff_forall_not_mem.mpr fun p linked => dead p (sound.owned.indexed b p linked).1
  · intro p current
    have freed : s.freed p = true := by
      by_contra alive
      exact dead p ⟨current, Bool.eq_false_iff.mpr alive⟩
    exact ⟨recorded.freed p freed, freed⟩

/-- In every reachable state `pending` is the number of pages counted in and not counted out,
and it is positive wherever it is decremented.  When it is zero while no foreground call is in
progress, the queues and the hands of the stages are empty, the stages alone will not touch the
index, and if no error is latched the index is empty and every page created has been written
back and freed. -/
theorem drain_accounting (reached : Reachable cfg file scratch s) :
    s.pending = s.outstanding ∧
    (s.s1 = .dropDec ∨ (∃ batch, s.s2 = .decrement batch) → 0 < s.pending) ∧
    (Quiet s → s.pending = 0 →
      (s.q1 = [] ∧ s.q2 = [] ∧ s.s1.pages = [] ∧ s.s2.pages = []) ∧
      (∀ s', Run (Engine.step cfg) (fun _ label => label.isStage = true) s s' →
        s'.buckets = s.buckets) ∧
      (s.ioErr = false → (∀ b, s.buckets b = []) ∧
        ∀ p < s.created, Written s p ∧ s.freed p = true)) := by
  have sound := sound_of_run reached
  refine ⟨sound.pending, fun decrements => ?_, fun quiet empty => ?_⟩
  · have count := sound.pending
    rw [Pending, Engine.outstanding] at count
    rcases decrements with position | ⟨batch, position⟩
    · simp only [position, Stage1.owing] at count
      omega
    · simp only [position, Stage2.owing] at count
      omega
  · have drained := Drained.of_pending sound.pending empty
    refine ⟨⟨drained.q1, drained.q2, drained.hand, drained.batch⟩,
      fun s' run => drained.buckets_of_run run, fun clean => ?_⟩
    exact settled_of_drained reached quiet empty clean

/-! ## Closing a drained engine -/

/-- The step is one that `nox_close` needs once nothing is left to flush. -/
def Label.closes : Label n → Bool
  | .close | .closer | .stage1 | .stage2 | .closeFd true => true
  | _ => false

theorem Label.cases_of_closes (closes : label.closes = true) :
    label = .close ∨ label = .closer ∨ label = .stage1 ∨ label = .stage2 ∨ label = .closeFd true := by
  cases label with
  | closeFd ok => cases ok <;> simp_all [Label.closes]
  | _ => simp_all [Label.closes]

theorem resident_of_empty (empty : ∀ b, s.buckets b = []) : s.resident = [] := by
  rw [Engine.resident, List.flatMap_eq_nil_iff]
  exact fun b _ => empty b

/-- The walk over an empty index. -/
theorem sweep_of_empty (cfg : Config) (empty : ∀ b, s.buckets b = []) (err : Bool)
    (left bucket : Nat) (last : bucket + left + 1 = piBuckets) :
    Run (Engine.step cfg) (fun _ label => label.closes = true)
      { s with closer := .sweep err bucket none } { s with closer := .secondDrain err } := by
  induction left generalizing bucket with
  | zero =>
    have stepped : Engine.step cfg { s with closer := .sweep err bucket none } .closer =
        some { s with closer := .secondDrain err } := by
      simp [Engine.step, Engine.closerStep, show ¬ bucket + 1 < piBuckets by omega]
    exact .tail .refl rfl stepped
  | succ left inductionHypothesis =>
    have stepped : Engine.step cfg { s with closer := .sweep err bucket none } .closer =
        some { s with closer := .sweep err (bucket + 1) none } := by
      simp [Engine.step, Engine.closerStep, show bucket + 1 < piBuckets by omega, empty]
    exact .trans (.tail .refl rfl stepped) (inductionHypothesis (bucket + 1) (by omega))

/-- `nox_close` from the second drain to the end of Stage-1. -/
theorem join1_of_drained (cfg : Config) (position : s.closer = .secondDrain false)
    (drained : s.pending = 0) (clean : s.ioErr = false) (first : s.s1 = .idle) (q1 : s.q1 = []) :
    Run (Engine.step cfg) (fun _ label => label.closes = true) s
      { s with stopping := true, shut1 := true, s1 := .exited, closer := .shutdown2 false } := by
  have followed : Run.follow (fun _ label => Label.closes label) (Engine.step cfg) s
      [.closer, .closer, .closer, .stage1, .closer] = some
        { s with stopping := true, shut1 := true, s1 := .exited, closer := .shutdown2 false } := by
    simp [Run.follow, Label.closes, Engine.step, Engine.closerStep, Engine.stage1Step,
      position, drained, clean, first, q1]
  exact .of_follow (fun _ _ closes => closes) followed

/-- `nox_close` from the end of Stage-1 to the end of Stage-2. -/
theorem join2_of_drained (cfg : Config) (position : s.closer = .shutdown2 false)
    (second : s.s2 = .idle) (q2 : s.q2 = []) :
    Run (Engine.step cfg) (fun _ label => label.closes = true) s
      { s with shut2 := true, s2 := .exited, closer := .lastCheck false } := by
  have followed : Run.follow (fun _ label => Label.closes label) (Engine.step cfg) s
      [.closer, .stage2, .closer] = some
        { s with shut2 := true, s2 := .exited, closer := .lastCheck false } := by
    simp [Run.follow, Label.closes, Engine.step, Engine.closerStep, Engine.stage2Step,
      position, second, q2]
  exact .of_follow (fun _ _ closes => closes) followed

/-- `nox_close` from its last check on. -/
theorem return_of_drained (cfg : Config) (position : s.closer = .lastCheck false)
    (clean : s.ioErr = false) (empty : s.resident = []) :
    ∃ s', Run (Engine.step cfg) (fun _ label => label.closes = true) s s' ∧
      s'.closer = .returned false ∧ s'.file = s.file ∧ s'.log = s.log := by
  have check : s.step cfg .closer = some { s with closer := .destroy false } := by
    simp [Engine.step, Engine.closerStep, position, clean]
  have destroy : Engine.step cfg { s with closer := .destroy false } .closer = some { s with
      freed := fun p => s.freed p || s.resident.contains p
      buckets := fun _ => []
      watermark := { s.watermark with live := s.watermark.live - s.resident.length }
      closer := .closeFd false
      log := s.resident.map Event.freed ++ s.log } := rfl
  have close : Engine.step cfg { s with
      freed := fun p => s.freed p || s.resident.contains p
      buckets := fun _ => []
      watermark := { s.watermark with live := s.watermark.live - s.resident.length }
      closer := .closeFd false
      log := s.resident.map Event.freed ++ s.log } (.closeFd true) = some { s with
      freed := fun p => s.freed p || s.resident.contains p
      buckets := fun _ => []
      watermark := { s.watermark with live := s.watermark.live - s.resident.length }
      closer := .returned false
      log := s.resident.map Event.freed ++ s.log } := rfl
  refine ⟨_, .tail (.tail (.tail .refl rfl check) rfl destroy) rfl close, rfl, rfl, ?_⟩
  rw [empty]
  rfl

/-- Once nothing is left to flush and no error is latched, `nox_close` runs to its end and
returns 0. -/
theorem closes_of_drained (reached : Reachable cfg file scratch s) (running : s.closer = .running)
    (idle : ∀ t, s.fg t = .idle) (drained : s.pending = 0) (clean : s.ioErr = false)
    (first : s.s1 = .idle) (second : s.s2 = .idle) :
    ∃ s', Run (Engine.step cfg) (fun _ label => label.closes = true) s s' ∧
      s'.closer = .returned false ∧ s'.file = s.file ∧ s'.log = s.log := by
  obtain ⟨q1, q2⟩ : s.q1 = [] ∧ s.q2 = [] :=
    have nothing := Drained.of_pending (sound_of_run reached).pending drained
    ⟨nothing.q1, nothing.q2⟩
  obtain ⟨empty, -⟩ := settled_of_drained reached ⟨idle, by rw [running]; rfl⟩ drained clean
  have entered : Run.follow (fun _ label => Label.closes label) (Engine.step cfg) s
      [.close, .closer, .closer] = some { s with
        watermark := { s.watermark with armed := false }
        closer := .sweep false 0 none } := by
    simp [Run.follow, Label.closes, Engine.step, Engine.noxClose, Engine.closerStep, running, idle,
      Fg.isIdle, drained, clean, empty]
  have walked := sweep_of_empty cfg
    (s := { s with watermark := { s.watermark with armed := false } }) empty false 1023 0 rfl
  have stopped := join1_of_drained cfg
    (s := { s with watermark := { s.watermark with armed := false }, closer := .secondDrain false })
    rfl drained clean first q1
  have joined := join2_of_drained cfg
    (s := { s with
      watermark := { s.watermark with armed := false }
      stopping := true
      shut1 := true
      s1 := .exited
      closer := .shutdown2 false }) rfl second q2
  obtain ⟨s', returned, closed, file, log⟩ := return_of_drained cfg
    (s := { s with
      watermark := { s.watermark with armed := false }
      stopping := true
      shut1 := true
      s1 := .exited
      shut2 := true
      s2 := .exited
      closer := .lastCheck false }) rfl clean (resident_of_empty empty)
  have entry := Run.of_follow (fun _ _ closes => closes) entered
  exact ⟨s', (((entry.trans walked).trans stopped).trans joined).trans returned, closed, file, log⟩

/-- The engine is open, nothing is left to flush and no error is latched. -/
def Engine.Settled (s : Engine n) : Prop :=
  s.closer = .running ∧ (∀ t, (s.fg t).isIdle = true) ∧ s.pending = 0 ∧ s.ioErr = false ∧
    s.s1 = .idle ∧ s.s2 = .idle

instance (s : Engine n) : Decidable s.Settled := inferInstanceAs (Decidable (_ ∧ _))

/-- A run that ends with nothing left to flush goes on to the end of `nox_close`. -/
theorem exists_closed {condition : Engine n → Label n → Prop}
    (closes : ∀ s label, label.closes = true → condition s label) {shows : Engine n → Prop}
    (reached : ∃ s, Run (Engine.step cfg) condition (Engine.init n cfg file scratch) s ∧
      (s.Settled ∧ shows s)) :
    ∃ s s', Run (Engine.step cfg) condition (Engine.init n cfg file scratch) s' ∧
      s'.closer = .returned false ∧ s'.file = s.file ∧ s'.log = s.log ∧ shows s := by
  obtain ⟨s, run, ⟨running, idle, drained, clean, first, second⟩, shown⟩ := reached
  have idle : ∀ t, s.fg t = .idle := fun t => by
    have still := idle t
    cases position : s.fg t <;> simp [position, Fg.isIdle] at still ⊢
  obtain ⟨s', closing, closed, file, log⟩ :=
    closes_of_drained (run.weaken fun _ _ _ => trivial) running idle drained clean first second
  exact ⟨s, s', run.trans (closing.weaken closes), closed, file, log, shown⟩

/-! ## A small run -/

/-- Stage-2 frees the page of the small run and counts it out. -/
def tinyFree : List (Label 1) := List.replicate 6 .stage2

/-- Once the page of the small run is counted out, it has been written and freed. -/
theorem drain_accounting_of_freed :
    ∃ s : Engine 1, Reachable .standard emptyFile (fun _ => 0) s ∧ Quiet s ∧ s.pending = 0 ∧
      s.ioErr = false ∧ s.created = 1 ∧ Written s 0 ∧ s.freed 0 = true := by
  obtain ⟨s, reached, idle, running, empty, clean, created⟩ :=
    exists_reachable .standard emptyFile (fun _ => 0)
      (tinyWrite ++ tinyFill ++ tinyWriteback ++ tinyFree)
      (fun s => (s.fg 0).isIdle = true ∧ s.closer = .running ∧ s.pending = 0 ∧ s.ioErr = false ∧
        s.created = 1) (by decide +kernel)
  have quiet : Quiet s := by
    refine ⟨fun t => ?_, by rw [running]; rfl⟩
    obtain rfl : t = 0 := Subsingleton.elim _ _
    cases position : s.fg 0 <;> simp [position, Fg.isIdle] at idle ⊢
  obtain ⟨-, -, drained⟩ := drain_accounting reached
  obtain ⟨written, freed⟩ := ((drained quiet empty).2.2 clean).2 0 (by omega)
  exact ⟨s, reached, quiet, empty, clean, created, written, freed⟩

end NoxDB

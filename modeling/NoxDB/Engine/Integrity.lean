import NoxDB.Engine.LastWriter

/-! # Every byte to its last writer

The four lines of argument meet here: custody of pages stays orderly, the bytes of pages are
coherent with the file, calls are answered by the latest writes, and `nox_close` returns 0
only after everything was written.  Together they say what a closed file holds.
-/

namespace NoxDB

open Function (update)
open Library.Runs

variable {n : Nat}

/-- A thread that took a page finds no newer page with bytes of the chunk it is writing. -/
def Shadowless (s : Engine n) : Prop :=
  ∀ t call done pc p, s.fg t = .scrap call done pc → pc.taken = some p →
    ∀ q y, p < q → s.Carries q y → call.cur done ≤ y → y < call.cur done + call.chunk done →
      (s.cellAt q y).src ≠ .user y

/-- The return value that `nox_close` has settled on. -/
def Closer.verdict : Closer → Option Bool
  | .destroy err | .closeFd err | .returned err => some err
  | _ => none

/-- `nox_close` reports an error that was latched. -/
def Reported (s : Engine n) : Prop := ∀ err ∈ s.closer.verdict, s.ioErr = true → err = true

variable {cfg : Config} {file : File} {scratch : Nat → UInt8} {s s' : Engine n} {label : Label n}
  {y : Nat}

/-! ## Pages in the hand of a writer -/

theorem Shadowless.unshadowed (shadowless : Shadowless s) : Unshadowed s :=
  fun t call done p _ position => shadowless t call done _ p position rfl

theorem Shadowless.step (shadowless : Shadowless s) (ordinary : Ordinary cfg s)
    (coherent : Coherent file s) (apart : Apart s) (move : Move cfg s label s')
    (next : Guided cfg s') : Shadowless s' := by
  intro t call done pc p after taken q y newer carries low high user
  have placed := next.aimed t call done pc p after (ChunkPc.target_of_taken taken)
  rcases taken_cases move after taken with ⟨pc', before, took⟩ | ⟨-, linked, -⟩
  · -- Nobody else writes the bytes of this chunk, and Stage-1 leaves no user byte.
    have old : ∀ same : SameByte s s' q y, False := fun same => by
      have carried := same.before carries
      rw [(same.after carried).2] at user
      exact shadowless t call done pc' p before took q y newer carried low high user
    cases byte_step ordinary move file y with
    | quiet _ _ pages => exact old (pages q)
    | direct _ _ _ _ _ pages => exact old (pages q)
    | writeback _ _ _ _ _ pages => exact old (pages q)
    | @merge u other done' r created position inside v value latest byte carries' cell pages =>
      by_cases written : q = r
      · subst written
        have more := ordinary.sound.ready.progress t call done _ before
        have moreToo := ordinary.sound.ready.progress u other done' _ position
        by_cases mine : t = u
        · subst mine
          obtain ⟨-, -, rfl⟩ := Fg.scrap.inj (before.symm.trans position)
          obtain rfl : q = p := Option.some.inj took
          exact lt_irrefl _ newer
        · exact apart t u mine call (by rw [before]; rfl) other (by rw [position]; rfl) y
            ⟨Call.covers_of_chunk more low high, Call.covers_of_chunk moreToo inside.1 inside.2⟩
      · exact old (pages q written)
    | @fill r position window hole latest byte carries' cell pages =>
      by_cases filled : q = r
      · subst filled
        have inside : y - (s.pages q).base < zoneSize := by
          have := window.1
          have := window.2
          omega
        have place : (s.pages q).base + (y - (s.pages q).base) = y := Nat.add_sub_cancel' window.1
        have fetched := coherent.fetched q [] (by rw [position]; rfl) _ inside hole
        rw [place] at fetched
        rw [cell] at user
        exact (fetched.resolve_left Library.Segments.covers_nil).2 user
      · exact old (pages q filled)
  · -- The index has the newest page of a base.
    have current := target_lt_created next.sound.owned after (ChunkPc.target_of_taken taken)
    have window : s'.InWindow p y := by
      have place := call.base_add_intra done
      have room := call.intra_add_chunk_le done
      rw [Engine.InWindow, placed]
      omega
    have same := next.placed.same_base carries.current current carries.window window
    exact absurd (next.newest _ p linked q carries.current same) (Nat.not_le.mpr newer)

theorem Shadowless.init (cfg : Config) (file : File) (scratch : Nat → UInt8) :
    Shadowless (Engine.init n cfg file scratch) := by
  intro t call done pc p position
  simp [Engine.init] at position

/-! ## The verdict of `nox_close` -/

theorem Reported.init (cfg : Config) (file : File) (scratch : Nat → UInt8) :
    Reported (Engine.init n cfg file scratch) := by
  intro err verdict
  simp [Engine.init, Closer.verdict] at verdict

theorem Closer.phase_of_verdict {closer : Closer} {err : Bool} (verdict : err ∈ closer.verdict) :
    10 ≤ closer.phase := by
  cases closer <;> simp_all [Closer.verdict, Closer.phase]

theorem Reported.step (reported : Reported s) (phases : Phases s) (move : Move cfg s label s') :
    Reported s' := by
  intro err verdict latched
  cases move with
  | fg move =>
    refine reported err ?_ ?_ <;> cases move <;> assumption
  | stage1 move =>
    cases move with
    | drop position =>
      have exited := phases.joined1 (by
        have := Closer.phase_of_verdict verdict
        exact Nat.le_trans (by decide : 8 ≤ 10) this)
      simp [exited] at position
    | _ => exact reported err verdict latched
  | stage2 move =>
    cases move with
    | latch position =>
      have exited := phases.joined2 (Closer.phase_of_verdict verdict)
      simp [exited] at position
    | _ => exact reported err verdict latched
  | closer move =>
    cases move with
    | lastCheck position =>
      obtain rfl := Option.some.inj verdict
      simpa using Or.inr latched
    | destroy position =>
      exact reported err (by rw [position]; exact verdict) latched
    | @closeFd err' ok position =>
      obtain rfl := Option.some.inj verdict
      simp [reported err' (by rw [position]; rfl) latched]
    | sweepLock position alive free page enqueue chosen =>
      cases enqueue <;> simp [Engine.sweepAfter, Closer.verdict] at verdict
    | _ => simp [Closer.verdict] at verdict

/-! ## Along a run -/

/-- What a step has to respect for every byte to reach the file in the order of the calls. -/
structure Careful (s : Engine n) (label : Label n) : Prop where
  safe : SafeAddress s label
  waits : NoOvertaking s label
  apart : NonOverlap s label
  whole : WholeReads s label
  clear : DirectClear s label

/-- What holds in every state of a careful run without an error. -/
structure Faithful (cfg : Config) (file : File) (s : Engine n) : Prop where
  scheduled : Scheduled cfg s
  recorded : Recorded s
  tracked : Tracked s
  apart : Apart s
  shadowless : Shadowless s
  coherent : Coherent file s
  answered : Answered file s

theorem Apart.init (cfg : Config) (file : File) (scratch : Nat → UInt8) :
    Apart (Engine.init n cfg file scratch) := by
  intro t u _ a first
  simp [Engine.init, Fg.call] at first

namespace Faithful

theorem init (cfg : Config) (file : File) (scratch : Nat → UInt8) :
    Faithful cfg file (Engine.init n cfg file scratch) where
  scheduled := .init cfg file scratch
  recorded := .init cfg file scratch
  tracked := .init cfg file scratch
  apart := .init cfg file scratch
  shadowless := .init cfg file scratch
  coherent := .init cfg file scratch
  answered := .init cfg file scratch

theorem step (faithful : Faithful cfg file s) (move : Move cfg s label s')
    (meets : Careful s label) (clean : s'.ioErr = false) : Faithful cfg file s' := by
  obtain ⟨scheduled, recorded, tracked, apart, shadowless, coherent, answered⟩ := faithful
  obtain ⟨safe, waits, separate, whole, clear⟩ := meets
  have next := scheduled.step move safe waits clean
  exact
    { scheduled := next
      recorded := recorded.step scheduled.sound scheduled.unstranded move clean
      tracked := tracked.step scheduled move
      apart := apart.step move separate
      shadowless := shadowless.step scheduled.toOrdinary coherent apart move next.toGuided
      coherent := coherent.step scheduled recorded tracked move shadowless.unshadowed clear whole
      answered := answered.step scheduled.sound apart move }

theorem of_run (run : Run (Engine.step cfg) Careful (Engine.init n cfg file scratch) s)
    (clean : s.ioErr = false) : Faithful cfg file s := by
  have smooth := run.backward (fun s => s.ioErr = false) clean fun stepped clean =>
    ioErr_mono (move_of_step stepped) clean
  apply smooth.invariant (Faithful cfg file)
  · exact .init cfg file scratch
  · rintro middle last label faithful ⟨meets, clean⟩ stepped
    exact faithful.step (move_of_step stepped) meets (clean last stepped)

end Faithful

/-! ## After `nox_close` -/

theorem reported_of_run (reached : Reachable cfg file scratch s) : Reported s := by
  apply reached.invariant_along (Sound cfg) Reported
  · exact sound_of_run
  · exact .init cfg file scratch
  · intro middle last label sound reported _ stepped
    exact reported.step sound.phases (move_of_step stepped)

/-- `nox_close` returns 0 only when no error was latched. -/
theorem clean_of_closed (reached : Reachable cfg file scratch s)
    (closed : s.closer = .returned false) : s.ioErr = false := by
  have reported := reported_of_run reached false (by rw [closed]; rfl)
  exact Bool.eq_false_iff.mpr fun latched => absurd (reported latched) (by simp)

/-- Nothing is left to write once both stages are gone and no error was latched. -/
theorem settled_of_joined (reached : Reachable cfg file scratch s) (joined : 11 ≤ s.closer.phase)
    (clean : s.ioErr = false) :
    (∀ b, s.buckets b = []) ∧ ∀ p < s.created, Written s p ∧ s.freed p = true := by
  have sound := sound_of_run reached
  have past : s.closer.bucket = none := by
    cases position : s.closer <;> simp_all [Closer.bucket, Closer.phase]
  have quiet : Quiet s := ⟨sound.phases.idle (by omega), past⟩
  have exited1 := sound.phases.joined1 (by omega)
  have exited2 := sound.phases.joined2 (by omega)
  have drained : s.pending = 0 := by
    have nobody : carriers Role.counted (roleOf s.fg s.closer) = [] := by
      apply carriers_nil
      intro o
      rw [show roleOf s.fg s.closer o = .none from quiet.role o]
      rfl
    rw [sound.pending, Engine.outstanding, exited1, exited2, (sound.phases.exited1 exited1).2,
      (sound.phases.exited2 exited2).2, nobody]
    rfl
  exact settled_of_drained reached quiet drained clean

/-- Nothing is left to write when `nox_close` returns 0. -/
theorem written_of_closed (reached : Reachable cfg file scratch s)
    (closed : s.closer = .returned false) : ∀ p < s.created, Written s p := by
  have phase : s.closer.phase = 13 := by rw [closed]; rfl
  have settled := settled_of_joined reached (by omega) (clean_of_closed reached closed)
  exact fun p current => (settled.2 p current).1

/-- When `nox_close` returns 0 after a careful run, every byte of the file is what the last
call for it promised. -/
theorem promised_of_closed
    (run : Run (Engine.step cfg) Careful (Engine.init n cfg file scratch) s)
    (closed : s.closer = .returned false) (y : Nat) : Promised file s y (s.file.byte y) := by
  have reached : Reachable cfg file scratch s := run.weaken fun _ _ _ => trivial
  have faithful := Faithful.of_run run (clean_of_closed reached closed)
  have idle := (sound_of_run reached).phases.idle (by rw [closed]; decide)
  have settled := faithful.answered.settled y fun t delivered => by
    obtain ⟨call, done, progress, -⟩ := delivered
    simp [idle t, Fg.progress] at progress
  rw [faithful.coherent.settled y fun p latest => ?_]
  · exact settled
  · have current := (faithful.coherent.top y p _ (Prod.ext latest rfl)).1.current
    exact written_of_closed reached closed p current

/-! ## The scrap path -/

/-- The call, if the step is one, takes the scrap path. -/
def Label.scrap : Label n → Bool
  | .call _ request => !request.isDirect
  | _ => true

/-- The setting of the scrap path: every call takes it, calls that overlap in time share no
byte, no allocation fails, no address is handed out twice, and a `pread` is short only at the end
of the file. -/
structure ScrapSetting (s : Engine n) (label : Label n) : Prop where
  scrap : label.scrap = true
  apart : NonOverlap s label
  allocates : label.allocates = true
  fresh : FreshAddress s label
  whole : WholeReads s label

/-- The same when addresses are reused, but none while somebody is going to detach the page that
had it. -/
structure SafeSetting (s : Engine n) (label : Label n) : Prop where
  scrap : label.scrap = true
  apart : NonOverlap s label
  allocates : label.allocates = true
  safe : SafeAddress s label
  whole : WholeReads s label

/-- What a file offset should hold: the byte of the last call for it, and what it held at first if
there was none. -/
def Engine.lastWritten (s : Engine n) (file : File) (y : Nat) : UInt8 :=
  match s.lastCall y with
  | none => file.byte y
  | some (call, _) => call.value y

/-- No thread is in a direct write. -/
def NoDirect (s : Engine n) : Prop := ∀ t call, s.fg t ≠ .direct call

theorem NoDirect.step (none : NoDirect s) (move : Move cfg s label s')
    (scrap : label.scrap = true) : NoDirect s' := by
  intro t call after
  by_cases mine : label.thread = some t
  · cases own_move move mine with
    | callZero => exact none t call after
    | callDirect _ _ _ direct => simp [Label.scrap, direct] at scrap
    | _ =>
      obtain rfl := Option.some.inj mine
      simp at after
  · rw [fg_frame move mine] at after
    exact none t call after

theorem NoDirect.clear (none : NoDirect s) (label : Label n) : DirectClear s label := by
  cases label with
  | pwrite t result =>
    intro call position
    exact absurd position (none t call)
  | _ => trivial

/-- A cooperative run without an error has nothing overtaken. -/
theorem careful_of_cooperative
    (run : Run (Engine.step cfg)
      (fun s label => (Cooperative s label ∧ WholeReads s label) ∧ DirectClear s label)
      (Engine.init n cfg file scratch) s) (clean : s.ioErr = false) :
    Run (Engine.step cfg) Careful (Engine.init n cfg file scratch) s := by
  have smooth := run.backward (fun s => s.ioErr = false) clean fun stepped clean =>
    ioErr_mono (move_of_step stepped) clean
  have steady := smooth.strengthen (Steady cfg) NoOvertaking (.init cfg file scratch)
    (fun steady met stepped => steady.step ⟨met.1.1.1, met.2⟩ stepped)
    (fun steady _ _ => steady.serial.noOvertaking _)
  exact steady.weaken fun s label ⟨⟨⟨⟨cooperative, whole⟩, clear⟩, _⟩, waits⟩ =>
    ⟨cooperative.safe, waits, cooperative.apart, whole, clear⟩

theorem lastWritten_of_promised (promised : Promised file s y (s.file.byte y))
    (ok : ∀ t call rc, Event.returned t call rc ∈ s.log → rc = .ok) :
    s.file.byte y = s.lastWritten file y := by
  rw [Promised] at promised
  rw [Engine.lastWritten]
  cases last : s.lastCall y with
  | none =>
    rw [last] at promised
    exact promised
  | some answer =>
    obtain ⟨call, rc⟩ := answer
    obtain ⟨t, member, -⟩ := returned_of_lastCall last
    rw [last] at promised
    exact promised (ok t call rc member)

/-- The event is the return of a call with an error. -/
def Event.failed : Event n → Bool
  | .returned _ _ rc => rc != .ok
  | _ => false

theorem Event.ok_of_not_failed {t : Fin n} {call : Call} {rc : ReturnCode}
    (fine : (Event.returned t call rc).failed = false) : rc = .ok := by
  simpa [Event.failed] using fine

theorem lastWritten_of_safe
    (run : Run (Engine.step cfg) SafeSetting (Engine.init n cfg file scratch) s)
    (ok : ∀ t call rc, Event.returned t call rc ∈ s.log → rc = .ok)
    (closed : s.closer = .returned false) (y : Nat) :
    s.file.byte y = s.lastWritten file y := by
  have reached : Reachable cfg file scratch s := run.weaken fun _ _ _ => trivial
  have clear := run.strengthen NoDirect DirectClear (by simp [NoDirect, Engine.init])
    (fun none met stepped => none.step (move_of_step stepped) met.scrap) (fun none _ _ => none.clear _)
  have careful := careful_of_cooperative (clear.weaken fun s label met =>
    ⟨⟨⟨met.1.safe, met.1.apart, met.1.allocates⟩, met.1.whole⟩, met.2⟩) (clean_of_closed reached closed)
  exact lastWritten_of_promised (promised_of_closed careful closed y) ok

/-- In the setting of the scrap path, when every call returned 0 and `nox_close` returns 0, the
file holds at every offset the byte of the last call for it, and its initial byte where there was
none. -/
theorem scrap_integrity
    (run : Run (Engine.step cfg) ScrapSetting (Engine.init n cfg file scratch) s)
    (ok : ∀ t call rc, Event.returned t call rc ∈ s.log → rc = .ok)
    (closed : s.closer = .returned false) (y : Nat) :
    s.file.byte y = s.lastWritten file y := by
  have safe := run.strengthen (Sound cfg) SafeAddress (.init cfg file scratch)
    (fun sound _ stepped => sound.move (move_of_step stepped))
    (fun sound met _ => safe_of_fresh sound met.fresh)
  exact lastWritten_of_safe (safe.weaken fun s label ⟨met, safe⟩ =>
    ⟨met.scrap, met.apart, met.allocates, safe, met.whole⟩) ok closed y

instance (s : Engine n) (label : Label n) : Decidable (WholeReads s label) :=
  match label with
  | .pread (.count delivered) =>
    inferInstanceAs (Decidable (∀ request ∈ s.s1.asked, delivered =
      s.file.available ((s.pages request.1).base + request.2.offset) request.2.size))
  | .pread .fail | .call _ _ | .alloc _ _ _ | .fg _ | .oom _ | .pwrite _ _ | .stage1 | .stage2
  | .pwritev _ | .close | .closer | .closeFd _ => inferInstanceAs (Decidable True)

theorem lastWritten_of_log (log : s'.log = s.log) : s'.lastWritten file y = s.lastWritten file y := by
  rw [Engine.lastWritten, Engine.lastCall, log]
  rfl

/-- Steps of a shutdown meet the setting. -/
theorem setting_of_closes (closes : label.closes = true) : ScrapSetting s label := by
  rcases Label.cases_of_closes closes with rfl | rfl | rfl | rfl | rfl <;>
    exact ⟨rfl, trivial, rfl, trivial, trivial⟩

/-- The small run writes byte 1 at offset 5 and leaves the byte before it. -/
theorem scrap_integrity_of_tiny :
    ∃ s : Engine 1, Run (Engine.step .standard) ScrapSetting
      (Engine.init 1 .standard emptyFile fun _ => 0) s ∧ s.closer = .returned false ∧
      s.file.byte 4 = 0 ∧ s.file.byte 5 = 1 := by
  have reached : ∃ s : Engine 1, Run (Engine.step .standard) ScrapSetting
      (Engine.init 1 .standard emptyFile fun _ => 0) s ∧ (s.Settled ∧
        (∀ event ∈ s.log, event.failed = false) ∧
        s.lastWritten emptyFile 4 = 0 ∧ s.lastWritten emptyFile 5 = 1) := by
    refine exists_run .standard emptyFile (fun _ => 0)
      (fun s label => decide (FreshAddress s label) && Alone s label && label.allocates &&
        label.scrap && decide (WholeReads s label))
      (fun s label passed => ?_)
      (tinyWrite ++ tinyFill ++ tinyWriteback ++ tinyFree) _ ?_
    · simp only [Bool.and_eq_true, decide_eq_true_eq] at passed
      obtain ⟨⟨⟨⟨fresh, alone⟩, allocates⟩, scrap⟩, whole⟩ := passed
      exact ⟨scrap, nonOverlap_of_alone alone, allocates, fresh, whole⟩
    · decide +kernel
  obtain ⟨s, s', run, closed, -, log, ok, before, written⟩ :=
    exists_closed (fun _ _ => setting_of_closes) reached
  have file := scrap_integrity run
    (fun t call rc member => Event.ok_of_not_failed (ok _ (log ▸ member))) closed
  refine ⟨s', run, closed, (file 4).trans ?_, (file 5).trans ?_⟩
  · rw [lastWritten_of_log log, before]
  · rw [lastWritten_of_log log, written]

end NoxDB

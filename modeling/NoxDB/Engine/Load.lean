import NoxDB.Engine.Roles

/-! # The device is never busy

`bcount` is what the two stages have in flight, at most one zone and one batch, so
`ssd_is_busy` never holds and neither stage ever defers a page.
-/

namespace NoxDB

variable {n : Nat}

/-- The bytes Stage-1 has in flight. -/
def Stage1.inflight : Stage1 → Nat
  | .reading _ _ | .readFailed _ => zoneSize
  | _ => 0

/-- The bytes Stage-2 has in flight. -/
def Stage2.inflight : Stage2 → Nat
  | .writing batch _ | .written batch _ => batch.length * zoneSize
  | _ => 0

/-- Stage-1 put its page back because the device was busy. -/
def Stage1.deferred : Stage1 → Bool
  | .busyPush _ | .waitNotBusy => true
  | _ => false

/-- Stage-2 put its page back because the device was busy. -/
def Stage2.deferred : Stage2 → Bool
  | .busyPush _ | .waitNotBusy => true
  | _ => false

structure Load (s : Engine n) : Prop where
  bcount : s.bcount = s.s1.inflight + s.s2.inflight
  batch : s.s2.pages.length ≤ pwritevMaxIov
  calm1 : s.s1.deferred = false
  calm2 : s.s2.deferred = false

theorem Stage1.inflight_le (s1 : Stage1) : s1.inflight ≤ zoneSize := by
  cases s1 <;> simp [inflight]

theorem Stage2.inflight_le (s2 : Stage2) : s2.inflight ≤ s2.pages.length * zoneSize := by
  cases s2 <;> simp [inflight, pages, tagged, unlinked, kept]

namespace Load

variable {cfg : Config} {s s' : Engine n} {label : Label n}

theorem init (cfg : Config) (file : File) (scratch : Nat → UInt8) :
    Load (Engine.init n cfg file scratch) :=
  ⟨rfl, by simp [Engine.init, Stage2.pages, Stage2.tagged, Stage2.unlinked, Stage2.kept], rfl, rfl⟩

theorem not_busy (load : Load s) : s.ssdIsBusy = false := by
  have first := s.s1.inflight_le
  have second := s.s2.inflight_le
  have batch := load.batch
  have bcount := load.bcount
  simp only [Engine.ssdIsBusy, decide_eq_false_iff_not]
  simp only [zoneSize, bcountBusyThreshold, pwritevMaxIov] at *
  omega

theorem fg (load : Load s) (move : FgMove cfg s label s') : Load s' := by
  cases move <;> exact { load with }

theorem closer (load : Load s) (move : CloserMove s label s') : Load s' := by
  cases move <;> exact { load with }

theorem stage1 (load : Load s) (move : Stage1Move cfg s label s') : Load s' := by
  have bcount := load.bcount
  have idle := load.not_busy
  have calm := load.calm1
  cases move with
  | inspectBusy position free holes busy => simp [idle] at busy
  | busyPush position => simp [position, Stage1.deferred] at calm
  | wake position => simp [position, Stage1.deferred] at calm
  | readStart position total charged =>
    rw [position] at bcount
    refine { load with bcount := ?_, calm1 := rfl }
    simp only [charged, bcount, Stage1.inflight]
    omega
  | readEnd position total discharged =>
    rw [position] at bcount
    refine { load with bcount := ?_, calm1 := rfl }
    simp only [discharged, bcount, Stage1.inflight]
    omega
  | readFailed position total discharged =>
    rw [position] at bcount
    refine { load with bcount := ?_, calm1 := rfl }
    simp only [discharged, bcount, Stage1.inflight]
    omega
  | pop position | exit position | inspectFull position | inspectHoles position
  | forwardEnter position | forwardPush position | guardPass position | fill position
  | drop position | dropDec position | fillEnter position | fillPush position
  | preadOk position | preadFail position =>
    rw [position] at bcount
    exact { load with bcount := bcount, calm1 := rfl }

theorem stage2 (load : Load s) (move : Stage2Move s label s') : Load s' := by
  have bcount := load.bcount
  have batch := load.batch
  have idle := load.not_busy
  have calm := load.calm2
  cases move with
  | poppedBusy position busy => simp [idle] at busy
  | busyPush position => simp [position, Stage2.deferred] at calm
  | wake position => simp [position, Stage2.deferred] at calm
  | writeStart position total charged =>
    rw [position] at bcount batch
    refine { load with bcount := ?_, batch := batch, calm2 := rfl }
    simp only [charged, bcount, Stage2.inflight]
    omega
  | written position total discharged =>
    rw [position] at bcount batch
    refine { load with bcount := ?_, batch := batch, calm2 := rfl }
    simp only [discharged, bcount, Stage2.inflight]
    omega
  | collectTake position room =>
    rw [position] at bcount
    refine { load with bcount := bcount, batch := ?_, calm2 := rfl }
    simpa [Stage2.pages, Stage2.tagged, Stage2.unlinked, Stage2.kept] using Nat.succ_le_of_lt room
  | pwritev position fits after outcome =>
    rw [position] at bcount batch
    cases after with
    | again next => exact { load with bcount := bcount, batch := batch, calm2 := rfl }
    | done result => exact { load with bcount := bcount, batch := batch, calm2 := rfl }
  | pop position | exit position | poppedGo position | collectStop position | checkReady position
  | checkNotReady position | pushBack position | detachDone position | unlinkSkip position
  | unlink position | tag position | latch position | freeDone position | free position
  | leave position | decrement position =>
    rw [position] at bcount batch
    refine { load with bcount := bcount, batch := ?_, calm2 := rfl }
    simp [Stage2.pages, Stage2.tagged, Stage2.unlinked, Stage2.kept] at batch ⊢
    try omega

theorem move (load : Load s) (move : Move cfg s label s') : Load s' := by
  cases move with
  | fg move => exact load.fg move
  | stage1 move => exact load.stage1 move
  | stage2 move => exact load.stage2 move
  | closer move => exact load.closer move

end Load

end NoxDB

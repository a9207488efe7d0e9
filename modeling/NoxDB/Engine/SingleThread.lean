import NoxDB.Engine.Integrity

/-! # One writer

With a single foreground thread no call overlaps another in time and no address comes back
while it is going to detach a page.  What is left to go wrong is an allocation that fails
between the seal of a page and the next one of its base, and a direct write that a page of
the same region does not know of.
-/

namespace NoxDB

open Function (update)
open Library.Runs

variable {n : Nat} {cfg : Config} {file : File} {scratch : Nat → UInt8} {s s' : Engine 1}
  {label : Label 1}

theorem safe_of_single (move : Move cfg s label s') : SafeAddress s label := by
  cases label with
  | alloc t address zone =>
    intro u p detaching
    obtain rfl : u = t := Subsingleton.elim _ _
    cases own_move move rfl with
    | alloc position => simp [position, Fg.detaching] at detaching
  | _ => trivial

theorem nonOverlap_of_single (move : Move cfg s label s') : NonOverlap s label := by
  cases label with
  | call t call =>
    intro u other busy
    obtain rfl : u = t := Subsingleton.elim _ _
    cases own_move move rfl with
    | callZero position | callDirect position | callScrap position =>
      simp [position, Fg.call] at busy
  | _ => trivial

/-- What a single thread supplies of a careful step. -/
theorem single_of_run {condition : Engine 1 → Label 1 → Prop}
    (run : Run (Engine.step cfg) condition (Engine.init 1 cfg file scratch) s) :
    Run (Engine.step cfg)
      (fun s label => condition s label ∧ SafeAddress s label ∧ NonOverlap s label)
      (Engine.init 1 cfg file scratch) s :=
  run.strengthen (fun _ => True) _ trivial (fun _ _ _ => trivial) fun _ _ stepped =>
    ⟨safe_of_single (move_of_step stepped), nonOverlap_of_single (move_of_step stepped)⟩

/-! ## Allocations that fail -/

/-- In a run of one writer on the scrap path in which any allocation may fail, but no page that is
born full overtakes an older page of its base and reads are whole: once `nox_close` has returned 0,
every byte whose last call was a successful one holds that call's value. -/
theorem enomem_harmless
    (run : Run (Engine.step cfg)
      (fun s label => label.scrap = true ∧ NoOvertaking s label ∧ WholeReads s label)
      (Engine.init 1 cfg file scratch) s)
    (closed : s.closer = .returned false) (y : Nat) (call : Call)
    (last : s.lastCall y = some (call, .ok)) : s.file.byte y = call.value y := by
  have clear := run.strengthen NoDirect DirectClear (by simp [NoDirect, Engine.init])
    (fun none met stepped => none.step (move_of_step stepped) met.1) (fun none _ _ => none.clear _)
  have careful : Run (Engine.step cfg) Careful (Engine.init 1 cfg file scratch) s :=
    (single_of_run clear).weaken fun s label met =>
      ⟨met.2.1, met.1.1.2.1, met.2.2, met.1.1.2.2, met.1.2⟩
  have promised := promised_of_closed careful closed y
  rw [Promised, last] at promised
  exact promised rfl

/-- No device call reports an error. -/
def Label.deviceFine : Label n → Bool
  | .pread .fail | .pwrite _ (.error _ _) | .pwritev (.error _ _) => false
  | _ => true

/-- The write that sealed the page comes back for a new page and finds no memory for it. -/
def failRetry : List (Label 1) := [.fg 0, .oom 0]

/-- The last call for file offset `y` succeeded and wants byte `v` there. -/
def Engine.owes (s : Engine n) (y : Nat) (v : UInt8) : Bool :=
  (s.lastCall y).any fun last => last.2 == .ok && last.1.value y == v

theorem exists_lastCall {s s' : Engine n} {y : Nat} {v : UInt8} (log : s'.log = s.log)
    (owes : s.owes y v = true) :
    ∃ call, s'.lastCall y = some (call, .ok) ∧ call.value y = v := by
  obtain ⟨⟨call, rc⟩, last, both⟩ := Option.any_eq_true _ _ |>.mp owes
  obtain ⟨rfl, value⟩ : rc = .ok ∧ call.value y = v := by simpa using both
  exact ⟨call, by rw [Engine.lastCall, log]; exact last, value⟩

/-- An allocation fails, the sealed page is flushed, and then the whole zone is written. -/
theorem enomem_harmless_of_flushed :
    ∃ s : Engine 1, Run (Engine.step .oneEntry)
      (fun s label => label.scrap = true ∧ NoOvertaking s label ∧ WholeReads s label)
      (Engine.init 1 .oneEntry emptyFile fun _ => 0) s ∧ s.closer = .returned false ∧
      ∃ call, s.lastCall 0 = some (call, .ok) ∧ call.value 0 = 255 ∧ s.file.byte 0 = 255 := by
  have reached := exists_run .oneEntry emptyFile (fun _ => 0)
    (fun (s : Engine 1) label => label.scrap = true ∧ NoOvertaking s label ∧ WholeReads s label)
    (fun _ _ passed => of_decide_eq_true passed)
    (sealEntry 0 ++ failRetry ++ fillOne 0 ++ writebackOne ++ freeOne ++ writeZone 0 ++
      writebackOne ++ freeOne)
    (fun s => s.Settled ∧ s.owes 0 255 = true) (by decide +kernel)
  obtain ⟨s, s', run, closed, -, log, owes⟩ := exists_closed (fun _ _ closes => by
    rcases Label.cases_of_closes closes with rfl | rfl | rfl | rfl | rfl <;>
      exact ⟨rfl, trivial, trivial⟩) reached
  obtain ⟨call, last, value⟩ := exists_lastCall log owes
  exact ⟨s', run, closed, call, last, value, (enomem_harmless run closed 0 call last).trans value⟩

set_option maxRecDepth 4000 in
/-- After an allocation failed, a page born full overtakes the sealed page, which then overwrites
it; `nox_close` returns 0. -/
theorem enomem_harmless_overtaken :
    ¬ ∀ s : Engine 1, Run (Engine.step .standard)
        (fun s label => label.scrap = true ∧ label.deviceFine = true ∧ WholeReads s label)
        (Engine.init 1 .standard emptyFile fun _ => 0) s → s.closer = .returned false →
      ∀ y call, s.lastCall y = some (call, .ok) → s.file.byte y = call.value y := by
  intro claimed
  have reached := exists_run .standard emptyFile (fun _ => 0)
    (fun (s : Engine 1) label =>
      label.scrap = true ∧ label.deviceFine = true ∧ WholeReads s label)
    (fun _ _ passed => of_decide_eq_true passed)
    (sealPage 0 ++ failRetry ++ writeZone 0 ++ writebackOne ++ freeOne ++ fillOne zoneSize ++
      writebackOne ++ freeOne)
    (fun s => s.Settled ∧ s.owes 0 255 = true ∧ s.file.byte 0 = 1) (by decide +kernel)
  obtain ⟨s, s', run, closed, bytes, log, owes, stale⟩ := exists_closed (fun _ _ closes => by
    rcases Label.cases_of_closes closes with rfl | rfl | rfl | rfl | rfl <;>
      exact ⟨rfl, rfl, trivial⟩) reached
  obtain ⟨call, last, value⟩ := exists_lastCall log owes
  have byte := claimed s' run closed 0 call last
  rw [bytes, stale, value] at byte
  simp at byte

/-! ## Direct writes among others -/

/-- Every call that returned so far returned 0. -/
def AllOk (s : Engine n) : Prop := ∀ t call rc, Event.returned t call rc ∈ s.log → rc = .ok

theorem allocates_of_ok {s s' : Engine n} {label : Label n} (move : Move cfg s label s')
    (ok : AllOk s') : label.allocates = true := by
  cases label with
  | oom t =>
    cases own_move move rfl with
    | @oomPage _ call | @oomDirect _ call =>
      have fine := ok t call .enomem (List.mem_cons_self)
      simp at fine
  | _ => rfl

theorem lastWritten_of_clear
    (run : Run (Engine.step cfg) (fun s label => DirectClear s label ∧ WholeReads s label)
      (Engine.init 1 cfg file scratch) s)
    (ok : AllOk s) (closed : s.closer = .returned false) (y : Nat) :
    s.file.byte y = s.lastWritten file y := by
  have reached : Reachable cfg file scratch s := run.weaken fun _ _ _ => trivial
  have fine := run.backward AllOk ok fun stepped ok t call rc member =>
    ok t call rc (log_mono (move_of_step stepped) member)
  have allocates := fine.strengthen (fun _ => True) (fun _ label => label.allocates = true) trivial
    (fun _ _ _ => trivial)
    fun _ met stepped => allocates_of_ok (move_of_step stepped) (met.2 _ stepped)
  have careful := careful_of_cooperative ((single_of_run allocates).weaken
    fun s label ⟨⟨⟨⟨clear, whole⟩, _⟩, allocates⟩, safe, apart⟩ =>
      ⟨⟨⟨safe, apart, allocates⟩, whole⟩, clear⟩) (clean_of_closed reached closed)
  exact lastWritten_of_promised (promised_of_closed careful closed y) ok

/-- In a run of one writer in which a direct write lands only on bytes that no page still to be
written has or was filled with, and reads are whole: once every call and `nox_close` have returned
0, the file is the initial one with the writes applied in program order. -/
theorem direct_coherent
    (run : Run (Engine.step cfg) (fun s label => DirectClear s label ∧ WholeReads s label)
      (Engine.init 1 cfg file scratch) s)
    (ok : ∀ t call rc, Event.returned t call rc ∈ s.log → rc = .ok)
    (closed : s.closer = .returned false) (y : Nat) :
    s.file.byte y = s.lastWritten file y :=
  lastWritten_of_clear run ok closed y

/-- The first megabyte of the file, by a direct write. -/
def bigCall : Call where
  buf := fun _ => 255
  size := directThreshold
  offset := 0
  size_lt := directThreshold_lt_word
  offset_lt := word_pos

def writeBig : List (Label 1) := [.call 0 bigCall, .pwrite 0 (.ok directThreshold)]

/-- A direct write comes before the first page. -/
def directFirst (s : Engine n) : Label n → Bool
  | .pwrite _ _ => s.created == 0
  | _ => true

theorem clear_of_first {s : Engine n} {label : Label n} (first : directFirst s label = true) :
    DirectClear s label := by
  cases label with
  | pwrite t result =>
    intro call _ y _ _ p current
    simp [directFirst] at first
    omega
  | _ => trivial

/-- A direct write and then a scrap write on top of it. -/
theorem direct_coherent_of_first :
    ∃ s : Engine 1, Run (Engine.step .standard)
      (fun s label => DirectClear s label ∧ WholeReads s label)
      (Engine.init 1 .standard emptyFile fun _ => 0) s ∧ s.closer = .returned false ∧
      s.file.byte 4 = 255 ∧ s.file.byte 5 = 1 := by
  have reached : ∃ s : Engine 1, Run (Engine.step .standard)
      (fun s label => DirectClear s label ∧ WholeReads s label)
      (Engine.init 1 .standard emptyFile fun _ => 0) s ∧ (s.Settled ∧
        (∀ event ∈ s.log, event.failed = false) ∧
        s.lastWritten emptyFile 4 = 255 ∧ s.lastWritten emptyFile 5 = 1) := by
    refine exists_run .standard emptyFile (fun _ => 0)
      (fun s label => directFirst s label && decide (WholeReads s label)) (fun s label passed => ?_)
      (writeBig ++ tinyWrite ++ fillOne zoneSize ++ writebackOne ++ freeOne) _ ?_
    · simp only [Bool.and_eq_true, decide_eq_true_eq] at passed
      exact ⟨clear_of_first passed.1, passed.2⟩
    · decide +kernel
  obtain ⟨s, s', run, closed, -, log, ok, before, written⟩ := exists_closed (fun _ _ closes => by
    rcases Label.cases_of_closes closes with rfl | rfl | rfl | rfl | rfl <;>
      exact ⟨trivial, trivial⟩) reached
  have file := direct_coherent run
    (fun t call rc member => Event.ok_of_not_failed (ok _ (log ▸ member))) closed
  refine ⟨s', run, closed, (file 4).trans ?_, (file 5).trans ?_⟩
  · rw [lastWritten_of_log log, before]
  · rw [lastWritten_of_log log, written]

/-- A direct write lands while an older page of its region waits for Stage-1; the page then
overwrites it. -/
theorem direct_coherent_overwritten :
    ¬ ∀ s : Engine 1, Run (Engine.step .standard)
        (fun s label => label.faultless = true ∧ WholeReads s label)
        (Engine.init 1 .standard emptyFile fun _ => 0) s →
      (∀ t call rc, Event.returned t call rc ∈ s.log → rc = .ok) → s.closer = .returned false →
      ∀ y, s.file.byte y = s.lastWritten emptyFile y := by
  intro claimed
  have reached := exists_run .standard emptyFile (fun _ => 0)
    (fun (s : Engine 1) label => label.faultless = true ∧ WholeReads s label)
    (fun _ _ passed => of_decide_eq_true passed)
    (tinyWrite ++ writeBig ++ fillOne zoneSize ++ writebackOne ++ freeOne)
    (fun s => s.Settled ∧ (∀ event ∈ s.log, event.failed = false) ∧
      s.lastWritten emptyFile 5 = 255 ∧ s.file.byte 5 = 1) (by decide +kernel)
  obtain ⟨s, s', run, closed, bytes, log, ok, owed, stale⟩ := exists_closed (fun _ _ closes => by
    rcases Label.cases_of_closes closes with rfl | rfl | rfl | rfl | rfl <;>
      exact ⟨rfl, trivial⟩) reached
  have byte := claimed s' run
    (fun t call rc member => Event.ok_of_not_failed (ok _ (log ▸ member))) closed 5
  rw [bytes, stale, lastWritten_of_log log, owed] at byte
  simp at byte

end NoxDB

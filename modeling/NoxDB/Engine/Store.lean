import Mathlib.Data.Nat.Find
import NoxDB.Engine.Integrity

/-! # The engine is a byte store

What the engine is for: a store of bytes in which every chunk of a call is written at one moment.
The byte that the engine holds for a file offset is the one in the newest page that has it and is
not on the device yet, and the one in the file if there is no such page (`Engine.view`).  Under
the conditions that callers and kernel have to meet, this view is at every moment the store after
the chunks merged so far, in the order of their merges; neither Stage-1 nor Stage-2 nor `nox_close`
ever changes it.
-/

namespace NoxDB

open Library.Runs

variable {n : Nat}

/-! ## The store -/

/-- Bytes by file offset. -/
abbrev Store := Nat → UInt8

def Store.write (store : Store) (offset len : Nat) (bytes : Nat → UInt8) : Store := fun y =>
  if offset ≤ y ∧ y < offset + len then bytes (y - offset) else store y

/-- What an event of the engine's history is to the store: a chunk, a direct write, or nothing. -/
def Event.replay (store : Store) : Event n → Store
  | .merged _ offset len cells => store.write offset len fun i => (cells i).val
  | .wroteDirect offset len bytes => store.write offset len bytes
  | _ => store

/-- The store after the history of the engine, over the bytes of the file at first. -/
def Engine.replayed (s : Engine n) (file : File) : Store :=
  s.log.foldr (fun event store => event.replay store) file.byte

theorem replayed_eq_latest (s : Engine n) (file : File) (y : Nat) :
    s.replayed file y = (s.latest file y).2 := by
  rw [Engine.replayed, Engine.latest]
  induction s.log with
  | nil => rfl
  | cons event log inductionHypothesis =>
    rw [List.foldr_cons, List.findSome?_cons]
    cases event with
    | merged p offset len cells =>
      by_cases inside : offset ≤ y ∧ y < offset + len
      · simp [Event.replay, Store.write, Event.lands, inside]
      · simpa [Event.replay, Store.write, Event.lands, inside] using inductionHypothesis
    | wroteDirect offset len bytes =>
      by_cases inside : offset ≤ y ∧ y < offset + len
      · simp [Event.replay, Store.write, Event.lands, inside]
      · simpa [Event.replay, Store.write, Event.lands, inside] using inductionHypothesis
    | _ => exact inductionHypothesis

/-! ## The view -/

/-- Page `p` has the byte and is not on the device yet. -/
def Engine.Pends (s : Engine n) (y : Nat) (p : PageId) : Prop := s.Carries p y ∧ ¬ Written s p

open Classical in
/-- The byte the engine holds for file offset `y`. -/
noncomputable def Engine.view (s : Engine n) : Store := fun y =>
  if ∃ p, s.Pends y p then (s.cellAt (Nat.findGreatest (s.Pends y) s.created) y).val
  else s.file.byte y

variable {cfg : Config} {file : File} {scratch : Nat → UInt8} {s : Engine n} {y : Nat} {p : PageId}

theorem view_of_newest (pends : s.Pends y p) (newest : ∀ q, s.Pends y q → q ≤ p) :
    s.view y = (s.cellAt p y).val := by
  classical
  have greatest : Nat.findGreatest (s.Pends y) s.created = p := by
    apply le_antisymm
    · exact newest _ (Nat.findGreatest_spec pends.1.current.le pends)
    · exact Nat.le_findGreatest pends.1.current.le pends
  rw [Engine.view, if_pos ⟨p, pends⟩]
  convert rfl
  exact greatest.symm

theorem view_of_none (none : ∀ q, ¬ s.Pends y q) : s.view y = s.file.byte y := by
  rw [Engine.view, if_neg (by simpa using none)]

/-- Some pending page is the newest. -/
theorem exists_newest (pends : s.Pends y p) :
    ∃ newest, s.Pends y newest ∧ ∀ q, s.Pends y q → q ≤ newest := by
  classical
  refine ⟨Nat.findGreatest (s.Pends y) s.created,
    Nat.findGreatest_spec pends.1.current.le pends, fun q later => ?_⟩
  exact Nat.le_findGreatest later.1.current.le later

/-- Two pages that have the same byte of the file are of the same base. -/
theorem Faithful.base_eq (faithful : Faithful cfg file s) {q : PageId} (first : s.Carries p y)
    (second : s.Carries q y) : (s.pages p).base = (s.pages q).base :=
  faithful.scheduled.placed.same_base first.current second.current first.window second.window

/-- Of the pages that still have to be written, the one with the latest write is the newest. -/
theorem Faithful.newest_of_latest (faithful : Faithful cfg file s) {v : UInt8}
    (latest : s.latest file y = (some p, v)) (unwritten : ¬ Written s p) {q : PageId}
    (pends : s.Pends y q) : q ≤ p := by
  obtain ⟨carries, -⟩ := faithful.coherent.top y p v latest
  by_contra later
  by_cases user : (s.cellAt q y).src = .user y
  · obtain ⟨top, among, below⟩ := faithful.coherent.under y q pends.1 pends.2 user
    obtain rfl : p = top := by simpa [latest] using among
    exact later below
  · -- Bytes from the device are only in the oldest page of a base.
    have oldest := (faithful.coherent.delivered y q pends.1 pends.2 user).2
    have freed := oldest p (Nat.lt_of_not_le later) (faithful.base_eq carries pends.1)
    exact unwritten (faithful.recorded.freed p freed)

/-- Once the latest write is on the device, the pages that still have to be written have the byte
of the file. -/
theorem Faithful.byte_of_written (faithful : Faithful cfg file s)
    (written : ∀ p ∈ (s.latest file y).1, Written s p) {q : PageId} (pends : s.Pends y q) :
    (s.cellAt q y).val = s.file.byte y := by
  by_cases user : (s.cellAt q y).src = .user y
  · obtain ⟨top, among, below⟩ := faithful.coherent.under y q pends.1 pends.2 user
    have done := written top among
    obtain ⟨carries, -⟩ := faithful.coherent.top y top _ (Prod.ext among rfl)
    rcases Nat.eq_or_lt_of_le below with rfl | older
    · exact absurd done pends.2
    · have freed := faithful.tracked.ordered top done q older (faithful.base_eq pends.1 carries)
      exact absurd (faithful.recorded.freed q freed) pends.2
  · exact (faithful.coherent.delivered y q pends.1 pends.2 user).1

/-- The engine holds the latest write. -/
theorem Faithful.view_eq (faithful : Faithful cfg file s) (y : Nat) :
    s.view y = (s.latest file y).2 := by
  by_cases written : ∀ p ∈ (s.latest file y).1, Written s p
  · rw [← faithful.coherent.settled y written]
    by_cases some_ : ∃ q, s.Pends y q
    · obtain ⟨q, pends⟩ := some_
      obtain ⟨newest, pends, greatest⟩ := exists_newest pends
      rw [view_of_newest pends greatest, faithful.byte_of_written written pends]
    · exact view_of_none (by simpa using some_)
  · push Not at written
    obtain ⟨p, latest, unwritten⟩ := written
    have latest : s.latest file y = (some p, (s.latest file y).2) := Prod.ext latest rfl
    obtain ⟨carries, cell⟩ := faithful.coherent.top y p _ latest
    rw [view_of_newest ⟨carries, unwritten⟩ fun q pends =>
      faithful.newest_of_latest latest unwritten pends, cell]

/-- What callers and kernel have to keep to: calls that overlap in time share no byte, no
allocation fails, no address is reused while somebody is going to detach the page that had it, a
`pread` is short only at the end of the file, and a direct write lands where no page waits. -/
def StoreSetting (s : Engine n) (label : Label n) : Prop :=
  (Cooperative s label ∧ WholeReads s label) ∧ DirectClear s label

/-- In every state of every such run without an error the engine holds the store after the chunks
and direct writes of its history, one at a time in the order in which they landed.  For an offset
that no unfinished call has written to, this is the byte that the last call for it promised.  And
whenever `pending` is zero between calls, it is the byte in the file. -/
theorem engine_is_store
    (run : Run (Engine.step cfg) StoreSetting (Engine.init n cfg file scratch) s)
    (clean : s.ioErr = false) :
    s.view = s.replayed file ∧
    (∀ y, (∀ t, ¬ (s.fg t).Delivered y) → Promised file s y (s.view y)) ∧
    (Quiet s → s.pending = 0 → ∀ y, s.file.byte y = s.view y) := by
  have reached : Reachable cfg file scratch s := run.weaken fun _ _ _ => trivial
  have faithful := Faithful.of_run (careful_of_cooperative run clean) clean
  refine ⟨funext fun y => ?_, fun y undisturbed => ?_, fun quiet empty y => ?_⟩
  · rw [faithful.view_eq, replayed_eq_latest]
  · rw [faithful.view_eq]
    exact faithful.answered.settled y undisturbed
  · have settled := (settled_of_drained reached quiet empty clean).2
    refine (view_of_none fun q pends => pends.2 ?_).symm
    exact (settled q pends.1.current).1

/-- The setting of the scrap path is one of these. -/
theorem storeSetting_of_scrap
    (run : Run (Engine.step cfg) ScrapSetting (Engine.init n cfg file scratch) s) :
    Run (Engine.step cfg) StoreSetting (Engine.init n cfg file scratch) s := by
  have safe := run.strengthen (Sound cfg) SafeAddress (.init cfg file scratch)
    (fun sound _ stepped => sound.move (move_of_step stepped))
    (fun sound met _ => safe_of_fresh sound met.fresh)
  have clear := safe.strengthen NoDirect DirectClear (by simp [NoDirect, Engine.init])
    (fun none met stepped => none.step (move_of_step stepped) met.1.scrap)
    (fun none _ _ => none.clear _)
  refine clear.weaken fun s label all => ?_
  obtain ⟨⟨met, safe⟩, clear⟩ := all
  exact ⟨⟨⟨safe, met.apart, met.allocates⟩, met.whole⟩, clear⟩

/-- After the small write the engine holds its first byte, and the file does not have it yet. -/
theorem engine_is_store_of_tiny :
    ∃ s : Engine 1, Run (Engine.step .standard) StoreSetting
      (Engine.init 1 .standard emptyFile fun _ => 0) s ∧ s.ioErr = false ∧
      s.file.byte 5 = 0 ∧ s.view 5 = 1 := by
  have reached : ∃ s : Engine 1, Run (Engine.step .standard) ScrapSetting
      (Engine.init 1 .standard emptyFile fun _ => 0) s ∧ s.ioErr = false ∧
        s.file.byte 5 = 0 ∧ s.replayed emptyFile 5 = 1 := by
    refine exists_run .standard emptyFile (fun _ => 0)
      (fun s label => decide (FreshAddress s label) && Alone s label && label.allocates &&
        label.scrap && decide (WholeReads s label))
      (fun s label passed => ?_) tinyWrite _ ?_
    · simp only [Bool.and_eq_true, decide_eq_true_eq] at passed
      obtain ⟨⟨⟨⟨fresh, alone⟩, allocates⟩, scrap⟩, whole⟩ := passed
      exact ⟨scrap, nonOverlap_of_alone alone, allocates, fresh, whole⟩
    · decide +kernel
  obtain ⟨s, run, clean, before, replayed⟩ := reached
  have store := storeSetting_of_scrap run
  refine ⟨s, store, clean, before, ?_⟩
  rw [(engine_is_store store clean).1, replayed]

end NoxDB

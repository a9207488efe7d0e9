import NoxDB.Engine.Device
import NoxDB.Library.Histories

/-! # Pages of one base are written in the order of their creation

In a run without overtaking, Stage-2 passes a page to the device only after every older
page of its base was written completely.  A run with overtaking need not: a page born
full goes straight to Queue-2 and leaves a sealed older page behind in Queue-1.
-/

namespace NoxDB

open Function (update)
open Library.Runs
open Library.Histories

variable {n : Nat} {cfg : Config} {file : File} {scratch : Nat → UInt8} {s s' : Engine n}
  {label : Label n}

/-- A batch has no two pages of one base. -/
theorem Consecutive.injective {offset : Nat} {pages : List PageId}
    (consecutive : Consecutive s offset pages) (short : pages.length ≤ pwritevMaxIov)
    {p q : PageId} (first : p ∈ pages) (second : q ∈ pages)
    (same : (s.pages p).base = (s.pages q).base) : p = q := by
  obtain ⟨i, low, rfl⟩ := List.mem_iff_getElem.mp first
  obtain ⟨j, high, rfl⟩ := List.mem_iff_getElem.mp second
  have firstBase := (consecutive i _ (List.getElem?_eq_getElem low)).2
  have secondBase := (consecutive j _ (List.getElem?_eq_getElem high)).2
  rw [firstBase, secondBase] at same
  have equal : i = j := by
    simp only [zoneSize, word, pwritevMaxIov] at *
    omega
  subst equal
  rfl

/-- While Stage-2 writes a page, no older page of its base is alive. -/
theorem Scheduled.oldest (scheduled : Scheduled cfg s) {batch : List PageId} {st : PwritevState}
    (position : s.s2 = .writing batch st) {p q : PageId} (inBatch : q ∈ batch)
    (alive : s.custody.Alive p) (same : (s.pages p).base = (s.pages q).base) : q ≤ p := by
  by_contra older
  have older : p < q := Nat.lt_of_not_le older
  have tagged : q ∈ s.custody.tagged := by simpa [Engine.custody, position, Stage2.tagged] using inBatch
  have current := (scheduled.sound.owned.live q (Custody.mem_pipe_of_tagged tagged)).1
  have queued := scheduled.orderly.queued_of_older scheduled.newest alive older current same.symm
  have sorted := scheduled.orderly.sorted
  rw [Custody.pipe] at queued sorted
  rcases List.mem_append.mp queued with ahead | behind
  · -- Both are in the batch, whose bases differ.
    have consecutive := scheduled.rows.batch
    rw [position] at consecutive
    have short := scheduled.sound.load.batch
    have inBatch' : p ∈ batch := by simpa [Engine.custody, position, Stage2.tagged] using ahead
    simp only [position, Stage2.pages, Stage2.tagged, Stage2.unlinked, Stage2.kept,
      Option.toList_none, List.append_nil] at short
    exact Nat.ne_of_lt older (consecutive.injective short inBatch' inBatch same)
  · have behind := (List.pairwise_append.mp sorted).2.2 q tagged p behind same.symm
    exact absurd behind (Nat.not_lt.mpr older.le)

/-- If the event passes pages to the device, the older pages of their bases were written. -/
def InOrder (s : Engine n) (event : Event n) (past : List (Event n)) : Prop :=
  ∀ offset pages zones, event = .issued offset pages zones →
    ∀ q ∈ pages, ∀ p < q, (s.pages p).base = (s.pages q).base → .wrote p ∈ past

theorem inOrder_step (scheduled : Scheduled cfg s) (recorded : Recorded s)
    (ordered : Past (InOrder s) s.log) (move : Move cfg s label s') : Past (InOrder s') s'.log := by
  have bases := base_stable (scheduled.sound.refines move)
  -- The bases of pages that were passed to the device do not change.
  have carried : Past (InOrder s') s.log := by
    refine ordered.imp fun event member past before => ?_
    rintro offset pages zones rfl q among p older same
    have current := (scheduled.rows.issued offset pages zones member).1.lt_created among
    rw [bases q current, bases p (lt_trans older current)] at same
    exact before offset pages zones rfl q among p older same
  have plain : ∀ event : Event n, event.plain = true → ∀ past, InOrder s' event past := by
    rintro event isPlain past offset pages zones rfl
    simp [Event.plain] at isPlain
  cases effect move with
  | quiet events log isPlain =>
    rw [log]
    exact carried.append fun event member => plain event (isPlain event member)
  | fill _ _ log => exact log ▸ carried
  | direct _ _ _ _ log =>
    rw [log]
    exact (carried.cons (by simp [InOrder])).cons (by simp [InOrder])
  | merge _ _ _ after before log isPlain =>
    rw [log]
    refine .append (fun event member => plain event (isPlain event (List.mem_append_left _ member)))
      (.cons (by simp [InOrder]) (carried.append fun event member =>
        plain event (isPlain event (List.mem_append_right _ member))))
  | @writeback batch st result after position _ _ _ log pages =>
    rw [log]
    refine .append (fun event member past => ?_) (.cons ?_ carried)
    · obtain ⟨q, -, rfl⟩ := List.mem_map.mp (List.mem_reverse.mp member)
      simp [InOrder]
    · rintro offset rows zones ⟨⟩ q among p older same
      have inBatch := List.mem_of_mem_drop among
      have tagged : q ∈ s.custody.tagged := by
        simpa [Engine.custody, position, Stage2.tagged] using inBatch
      have current := (scheduled.sound.owned.live q (Custody.mem_pipe_of_tagged tagged)).1
      rw [pages] at same
      -- An older page of the base is not alive, so it was freed, so it was written.
      apply recorded.freed p
      by_contra alive
      have alive : s.custody.Alive p := ⟨lt_trans older current, Bool.eq_false_iff.mpr alive⟩
      exact absurd (scheduled.oldest position inBatch alive same) (Nat.not_le.mpr older)

/-! ## Along a run -/

/-- A step that meets both conditions and latches no error. -/
def Disciplined (cfg : Config) (s : Engine n) (label : Label n) : Prop :=
  (SafeAddress s label ∧ NoOvertaking s label) ∧
    ∀ next, s.step cfg label = some next → next.ioErr = false

theorem disciplined_of_run
    (run : Run (Engine.step cfg) (fun s label => SafeAddress s label ∧ NoOvertaking s label)
      (Engine.init n cfg file scratch) s) (clean : s.ioErr = false) :
    Run (Engine.step cfg) (Disciplined cfg) (Engine.init n cfg file scratch) s :=
  run.backward (fun s => s.ioErr = false) clean fun stepped clean =>
    ioErr_mono (move_of_step stepped) clean

theorem scheduled_of_run {condition : Engine n → Label n → Prop}
    (disciplined : ∀ s label, condition s label → Disciplined cfg s label)
    (run : Run (Engine.step cfg) condition (Engine.init n cfg file scratch) s) :
    Scheduled cfg s ∧ Recorded s := by
  apply run.invariant fun s => Scheduled cfg s ∧ Recorded s
  · exact ⟨.init cfg file scratch, .init cfg file scratch⟩
  · rintro middle last label ⟨scheduled, recorded⟩ met stepped
    have move := move_of_step stepped
    obtain ⟨⟨safe, waits⟩, clean⟩ := disciplined middle label met
    exact ⟨scheduled.step move safe waits (clean last stepped),
      recorded.step scheduled.sound scheduled.unstranded move (clean last stepped)⟩

/-! ## Runs on one zone -/

/-- The numbers of the bytes below. -/
instance dots : NeZero 65 := ⟨Nat.succ_ne_zero 64⟩

/-- One byte at offset `2 * k`. -/
def dotCall (k : Fin 65) : Call where
  buf := fun _ => UInt8.ofNat (k + 1)
  size := 1
  offset := 2 * k
  size_lt := by decide
  offset_lt := by have := k.isLt; simp only [word]; omega

/-- The first zone of the file, whole. -/
def zoneCall : Call where
  buf := fun _ => 255
  size := zoneSize
  offset := 0
  size_lt := zoneSize_lt_word
  offset_lt := word_pos

/-- Thread `t` creates a page, fills its header with 64 entries, finds no room for the 65th and
detaches the page. -/
def sealPage (t : Fin n) : List (Label n) :=
  ([.call t (dotCall 0), .fg t, .alloc t 7 (fun _ => 1), .fg t, .fg t, .fg t, .fg t] :
    List (Label n)) ++
  ((((List.finRange 65).drop 1).take 63).flatMap
    (fun k => [.call t (dotCall k), .fg t, .fg t, .fg t, .fg t, .fg t]) : List (Label n)) ++
  ([.call t (dotCall 64), .fg t, .fg t, .fg t, .fg t, .fg t, .fg t] : List (Label n))

/-- The same with a single header entry, which the second write does not fit. -/
def sealEntry (t : Fin n) : List (Label n) :=
  [.call t (dotCall 0), .fg t, .alloc t 7 (fun _ => 1), .fg t, .fg t, .fg t, .fg t,
    .call t (dotCall 1), .fg t, .fg t, .fg t, .fg t, .fg t, .fg t]

/-- Thread `t` writes the whole zone into a page of its own. -/
def writeZone (t : Fin n) : List (Label n) :=
  [.call t zoneCall, .fg t, .alloc t 8 (fun _ => 1), .fg t, .fg t, .fg t, .fg t, .fg t]

/-- Stage-2 takes one page from Queue-2 and writes it. -/
def writebackOne : List (Label n) :=
  [.stage2, .stage2, .stage2, .stage2, .stage2, .stage2, .stage2, .pwritev (.ok zoneSize)]

/-- Stage-1 fills one page with what the device has for its holes. -/
def fillOne (delivered : Nat) : List (Label n) :=
  [.stage1, .stage1, .stage1, .stage1, .pread (.count delivered), .stage1, .stage1, .stage1, .stage1]

/-- Stage-2 frees the page it wrote and counts it out. -/
def freeOne : List (Label n) := List.replicate 6 .stage2

/-- The event passes page `p` to the device. -/
def Event.passes (p : PageId) : Event n → Bool
  | .issued _ pages _ => pages.contains p
  | _ => false

/-- The event completes the writeback of page `p`. -/
def Event.completes (p : PageId) : Event n → Bool
  | .wrote q => q = p
  | _ => false

/-- No allocation fails and no device call reports an error. -/
def Label.faultless : Label n → Bool
  | .oom _ | .pread .fail | .pwrite _ (.error _ _) | .pwritev (.error _ _) => false
  | _ => true

/-! ## Pages are written in the order of their creation -/

/-- In a run in which no stale address is reused and no page is overtaken, as long as no I/O
error is latched, a page is passed to the device only after every page of its base that was
created before it has been written completely. -/
theorem generation_order
    (run : Run (Engine.step cfg) (fun s label => SafeAddress s label ∧ NoOvertaking s label)
      (Engine.init n cfg file scratch) s) (clean : s.ioErr = false) :
    ∀ newer offset pages zones older, s.log = newer ++ .issued offset pages zones :: older →
      ∀ q ∈ pages, ∀ p < q, (s.pages p).base = (s.pages q).base → .wrote p ∈ older := by
  have all : (Scheduled cfg s ∧ Recorded s) ∧ Past (InOrder s) s.log := by
    apply (disciplined_of_run run clean).invariant fun s =>
      (Scheduled cfg s ∧ Recorded s) ∧ Past (InOrder s) s.log
    · exact ⟨scheduled_of_run (fun _ _ met => met) .refl, .nil⟩
    · rintro middle last label ⟨⟨scheduled, recorded⟩, ordered⟩ ⟨⟨safe, waits⟩, clean⟩ stepped
      have move := move_of_step stepped
      exact ⟨⟨scheduled.step move safe waits (clean last stepped),
        recorded.step scheduled.sound scheduled.unstranded move (clean last stepped)⟩,
        inOrder_step scheduled recorded ordered move⟩
  intro newer offset pages zones older log
  exact all.2 newer _ older log offset pages zones rfl

/-- With a single header entry the second byte does not fit page 0, which is sealed and detached, and
goes to page 1 of the same zone: both pages are in Queue-1. -/
def twoGenerations : List (Label 1) :=
  sealEntry 0 ++ [.fg 0, .alloc 0 8 (fun _ => 1), .fg 0, .fg 0, .fg 0, .fg 0] ++
    fillOne 0 ++ writebackOne ++ freeOne ++ fillOne zoneSize ++ writebackOne

/-- Two generations of one base are written, the older one first. -/
theorem generation_order_of_two :
    ∃ s : Engine 1, Run (Engine.step .oneEntry)
        (fun s label => SafeAddress s label ∧ NoOvertaking s label)
        (Engine.init 1 .oneEntry emptyFile fun _ => 0) s ∧ s.ioErr = false ∧
      (s.pages 0).base = (s.pages 1).base ∧
      ∃ newer offset pages zones older, s.log = newer ++ .issued offset pages zones :: older ∧
        1 ∈ pages ∧ .wrote 0 ∈ older := by
  obtain ⟨s, run, clean, bases, issued⟩ :=
    exists_run .oneEntry emptyFile (fun _ => 0)
      (fun s label => SafeAddress s label ∧ NoOvertaking s label)
      (fun _ _ passed => of_decide_eq_true passed) twoGenerations
      (fun s => s.ioErr = false ∧ (s.pages 0).base = (s.pages 1).base ∧
        s.log.any (Event.passes 1) = true) (by decide +kernel)
  obtain ⟨event, member, isIssued⟩ := List.any_eq_true.mp issued
  obtain ⟨newer, older, log⟩ := List.append_of_mem member
  cases event with
  | issued offset pages zones =>
    have among : 1 ∈ pages := by simpa [Event.passes] using isIssued
    exact ⟨s, run, clean, bases, newer, offset, pages, zones, older, log, among,
      generation_order run clean newer offset pages zones older log 1 among 0 (by decide) bases⟩
  | _ => simp [Event.passes] at isIssued

/-! ## A run with overtaking

Thread 0 leaves one byte at every other offset until the 65th does not fit, so it seals page 0
and detaches it.  Before it comes back with a new page, thread 1 writes the whole zone: its
page is born full and goes straight to Queue-2, while page 0 is still in Queue-1. -/

set_option maxRecDepth 4000 in
/-- Without `NoOvertaking` a page can be written while an older page of its base is not. -/
theorem generation_order_overtaken :
    ¬ ∀ s : Engine 2, Run (Engine.step .standard)
        (fun s label => SafeAddress s label ∧ label.faultless = true)
        (Engine.init 2 .standard emptyFile fun _ => 0) s → s.ioErr = false →
      ∀ newer offset pages zones older, s.log = newer ++ .issued offset pages zones :: older →
        ∀ q ∈ pages, ∀ p < q, (s.pages p).base = (s.pages q).base → .wrote p ∈ older := by
  intro claimed
  obtain ⟨s, run, clean, bases, issued, unwritten⟩ :=
    exists_run .standard emptyFile (fun _ => 0)
      (fun (s : Engine 2) label => SafeAddress s label ∧ label.faultless = true)
      (fun _ _ passed => of_decide_eq_true passed) (sealPage 0 ++ writeZone 1 ++ writebackOne)
      (fun s => s.ioErr = false ∧ (s.pages 0).base = (s.pages 1).base ∧
        s.log.any (Event.passes 1) = true ∧ s.log.any (Event.completes 0) = false)
      (by decide +kernel)
  obtain ⟨event, member, isIssued⟩ := List.any_eq_true.mp issued
  obtain ⟨newer, older, log⟩ := List.append_of_mem member
  cases event with
  | issued offset pages zones =>
    have among : 1 ∈ pages := by simpa [Event.passes] using isIssued
    have written := claimed s run clean newer offset pages zones older log 1 among 0 (by decide) bases
    have absent := List.any_eq_false.mp unwritten (.wrote 0) (by rw [log]; simp [written])
    simp [Event.completes] at absent
  | _ => simp [Event.passes] at isIssued

end NoxDB

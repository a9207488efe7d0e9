import NoxDB.Engine.Bytes

/-! # Pages and file agree on every byte

The invariant behind the integrity of a run.  For every file offset: if the latest write
went into a page, that page shows it, and once the page is written the file shows it.  A
page that is still to be written has no byte newer than the latest write, and what Stage-1
delivered into it, or read for it, is what the file holds.
-/

namespace NoxDB

open Function (update)
open Library.Segments
open Library.Runs

variable {n : Nat}

/-! ## Written pages -/

/-- The pages that Stage-2 has tagged and has still to write. -/
def Stage2.unfinished : Stage2 → List PageId
  | .detaching done _ | .tagging done _ _ => done
  | .writeStart batch => batch
  | .writing batch st => batch.drop st.i
  | _ => []

structure Tracked (s : Engine n) : Prop where
  flushing : ∀ p, Written s p → (s.pages p).hdr.tag = .flushing
  unfinished : ∀ p ∈ s.s2.unfinished, ¬ Written s p
  ordered : ∀ p, Written s p → ∀ q < p, (s.pages q).base = (s.pages p).base → s.freed q = true

variable {cfg : Config} {file : File} {scratch : Nat → UInt8} {s s' : Engine n} {label : Label n}
  {y : Nat}

theorem written_fg (move : FgMove cfg s label s') {p : PageId} (written : Written s' p) :
    Written s p := by
  cases move with
  | @decide t call done q created position decision =>
    obtain ⟨after, before, plain, events⟩ := chunkEvents_split t q call done decision
    rcases List.mem_append.mp written with new | old
    · rw [events] at new
      simp only [List.mem_append] at new
      rcases new with (new | new) | new
      · simpa [Event.plain] using plain _ (List.mem_append_left _ new)
      · split at new <;> simp at new
      · simpa [Event.plain] using plain _ (List.mem_append_right _ new)
    · exact old
  | detach => simpa [Written] using written
  | callZero | alloc | oomPage | oomDirect | unlockDone | pwrite => simpa [Written] using written
  | _ => exact written

/-- Only a `pwritev` completes the writeback of a page. -/
theorem written_cases (move : Move cfg s label s') {p : PageId} (written : Written s' p) :
    Written s p ∨ ∃ batch st result after, s.s2 = .writing batch st ∧
      result.Fits ((s.pages (batch.headD 0)).base + st.i * zoneSize)
        ((batch.drop st.i).length * zoneSize) ∧
      after = pwritevAfter (batch.map fun _ => zoneSize) st result ∧
      s'.file = s.file.pwrite ((s.pages (batch.headD 0)).base + st.i * zoneSize) result.landed
        (fun k => (gather ((batch.drop st.i).map fun p => (s.pages p).data) k).val) ∧
      s'.s2 = afterPwritev batch after ∧ p ∈ completedPages batch st after := by
  cases move with
  | fg move => exact .inl (written_fg move written)
  | stage1 move =>
    left
    cases move with
    | inspectHoles => simpa [Written] using written
    | _ => exact written
  | closer move =>
    left
    cases move with
    | destroy => simpa [Written] using written
    | _ => exact written
  | stage2 move =>
    cases move with
    | free => exact .inl (by simpa [Written] using written)
    | @pwritev batch st result position fits after outcome =>
      rcases List.mem_append.mp written with new | old
      · obtain ⟨q, completed, same⟩ := List.mem_map.mp (List.mem_reverse.mp new)
        obtain rfl := Event.wrote.inj same
        exact .inr ⟨batch, st, result, after, position, fits, outcome, rfl, rfl, completed⟩
      · exact .inl (by simpa [Written] using old)
    | _ => exact .inl written

theorem completed_subset (batch : List PageId) (st : PwritevState) (after : PwritevNext) :
    ∀ p ∈ completedPages batch st after, p ∈ batch.drop st.i := by
  intro p completed
  cases after with
  | again next => exact List.mem_of_mem_take completed
  | done total =>
    cases total with
    | none => simp [completedPages] at completed
    | some total => exact completed

/-- What a `pwritev` completes it does not come back to. -/
theorem unfinished_of_completed {batch : List PageId} (nodup : batch.Nodup) {st : PwritevState}
    {after : PwritevNext} {p : PageId} (ahead : ∀ next, after = .again next → st.i ≤ next.i)
    (completed : p ∈ completedPages batch st after) : p ∉ (afterPwritev batch after).unfinished := by
  cases after with
  | done total => simp [afterPwritev, Stage2.unfinished]
  | again next =>
    intro left
    have le := ahead next rfl
    have split : batch.drop st.i =
        (batch.drop st.i).take (next.i - st.i) ++ batch.drop next.i := by
      rw [show next.i = st.i + (next.i - st.i) by omega, ← List.drop_drop, Nat.add_sub_cancel_left,
        List.take_append_drop]
    have apart := nodup.sublist (List.drop_sublist st.i batch)
    rw [split] at apart
    exact List.disjoint_of_nodup_append apart completed left

namespace Tracked

theorem init (cfg : Config) (file : File) (scratch : Nat → UInt8) :
    Tracked (Engine.init n cfg file scratch) := by
  constructor <;> simp [Engine.init, Written, Stage2.unfinished]

/-- A page that Stage-2 has not tagged was not written. -/
theorem unwritten_of_waiting (tracked : Tracked s) (sound : Sound cfg s) {p : PageId}
    (member : p ∈ s.custody.waiting) : ¬ Written s p := fun written =>
  ne_flushing_of_waiting sound member (tracked.flushing p written)

theorem unwritten_of_held (tracked : Tracked s) (sound : Sound cfg s) {t : Fin n} {call : Call}
    {done : Nat} {p : PageId} {created : Bool}
    (position : s.fg t = .scrap call done (.held p created)) : ¬ Written s p := fun written =>
  ne_flushing_of_held sound position (tracked.flushing p written)

theorem lt_created (tracked : Tracked s) (sound : Sound cfg s) {p : PageId}
    (written : Written s p) : p < s.created :=
  lt_created_of_flushing sound (tracked.flushing p written)

theorem unfinished_step (tracked : Tracked s) (sound : Sound cfg s) (move : Move cfg s label s') :
    ∀ p ∈ s'.s2.unfinished, ¬ Written s' p := by
  intro p member written
  rcases written_cases move written with
    old | ⟨batch, st, result, after, position, -, outcome, -, next, completed⟩
  · -- A page that was written before is flushing, so it was not tagged just now.
    have kept : p ∉ s.s2.unfinished := fun unfinished => tracked.unfinished p unfinished old
    have elsewhere : s'.s2 = s.s2 → False := fun same => kept (same ▸ member)
    have flushing := tracked.flushing p old
    cases move with
    | fg move => exact elsewhere (by cases move <;> rfl)
    | stage1 move => exact elsewhere (by cases move <;> rfl)
    | closer move => exact elsewhere (by cases move <;> rfl)
    | stage2 move =>
      cases move with
      | @tag done q todo position free =>
        rcases List.mem_append.mp member with before | now
        · exact kept (by rw [position]; exact before)
        · obtain rfl := List.mem_singleton.mp now
          exact tracked.unwritten_of_waiting sound (by
            simp [Custody.waiting, Engine.custody, position, Stage2.unlinked]) old
      | detachDone position | unlinkSkip position | unlink position | writeStart position =>
        exact kept (by rw [position]; exact member)
      | @pwritev batch st result position fits after outcome =>
        have equal : ∀ l ∈ batch.map fun _ => zoneSize, l = zoneSize := by simp
        rcases pwritevAfter_cases equal outcome with rfl | ⟨next, rfl, ahead, -⟩ | ⟨total, rfl, -⟩
        · simp [afterPwritev, Stage2.unfinished] at member
        · refine kept ?_
          rw [position]
          exact (List.drop_sublist_drop_left batch ahead).subset member
        · simp [afterPwritev, Stage2.unfinished] at member
      | _ => simp [Stage2.unfinished] at member
  · have equal : ∀ l ∈ batch.map fun _ => zoneSize, l = zoneSize := by simp
    have nodup : batch.Nodup := by
      have whole := sound.owned.nodup
      simp only [Custody.pipe, Engine.custody, position, Stage2.tagged] at whole
      exact (List.nodup_append.mp whole).1
    rw [next] at member
    refine unfinished_of_completed nodup (fun later again => ?_) completed member
    rcases pwritevAfter_cases equal outcome with gone | ⟨other, same, ahead, -⟩ | ⟨total, gone, -⟩
    · simp [gone] at again
    · obtain rfl := PwritevNext.again.inj (same.symm.trans again)
      exact ahead
    · simp [gone] at again

theorem step (tracked : Tracked s) (scheduled : Scheduled cfg s) (move : Move cfg s label s') :
    Tracked s' := by
  have sound := scheduled.sound
  have bases := base_stable (sound.refines move)
  refine ⟨fun p written => ?_, tracked.unfinished_step sound move, fun p written q older same => ?_⟩
  · have flushing : (s.pages p).hdr.tag = .flushing := by
      rcases written_cases move written with old | ⟨batch, st, -, after, position, -, -, -, -, completed⟩
      · exact tracked.flushing p old
      · exact sound.owned.flushing p (by
          simpa [Engine.custody, position, Stage2.tagged] using
            List.mem_of_mem_drop (completed_subset batch st after p completed))
    rw [frozen_step sound move flushing]
    exact flushing
  · apply freed_mono sound move
    rcases written_cases move written with old | ⟨batch, st, -, after, position, -, -, -, -, completed⟩
    · have current := tracked.lt_created sound old
      rw [bases p current, bases q (lt_trans older current)] at same
      exact tracked.ordered p old q older same
    · have inBatch := List.mem_of_mem_drop (completed_subset batch st after p completed)
      have current : p < s.created := (sound.owned.live p (Custody.mem_pipe_of_tagged (by
        simpa [Engine.custody, position, Stage2.tagged] using inBatch))).1
      rw [bases p current, bases q (lt_trans older current)] at same
      by_contra alive
      have alive : s.custody.Alive q := ⟨lt_trans older current, Bool.eq_false_iff.mpr alive⟩
      exact absurd (scheduled.oldest position inBatch alive same) (Nat.not_le.mpr older)

end Tracked

/-! ## The invariant -/

/-- The page whose holes Stage-1 has listed and not started to read. -/
def Stage1.listing : Stage1 → Option (PageId × List ScrapEntry)
  | .guardWait p holes | .readStart p holes => some (p, holes)
  | _ => none

/-- The page that Stage-1 is reading for, and the runs it has still to read. -/
def Stage1.fetching : Stage1 → Option (PageId × List Segment)
  | .reading p runs => some (p, runs)
  | .finish p true => some (p, [])
  | _ => none

/-- The page that Stage-1 took past `wb_guard_wait` and has not filled yet. -/
def Stage1.admitted : Stage1 → Option PageId
  | .readStart p _ | .reading p _ | .finish p true => some p
  | _ => none

/-- The next run that Stage-1 asks the device for. -/
def Stage1.asked : Stage1 → Option (PageId × Segment)
  | .reading p (run :: _) => some (p, run)
  | _ => none

/-- A `pread` is short only at the end of the file. -/
def WholeReads (s : Engine n) : Label n → Prop
  | .pread (.count delivered) => ∀ request ∈ s.s1.asked,
    delivered = s.file.available ((s.pages request.1).base + request.2.offset) request.2.size
  | _ => True

/-- A direct write lands only on bytes that no page still to be written has, and that Stage-1 has
not read for one. -/
def DirectClear (s : Engine n) : Label n → Prop
  | .pwrite t result => ∀ call, s.fg t = .direct call → ∀ y, call.offset ≤ y →
    y < call.offset + result.landed → ∀ p, p < s.created → ¬ Written s p → s.InWindow p y →
      ¬ (s.pages p).Covered (y - (s.pages p).base) ∧
      ∀ runs, s.s1.fetching = some (p, runs) → Covers runs (y - (s.pages p).base)
  | _ => True

/-- A writer that holds a page finds no newer page with bytes of the chunk it is writing. -/
def Unshadowed (s : Engine n) : Prop :=
  ∀ t call done p created, s.fg t = .scrap call done (.held p created) →
    ∀ q y, p < q → s.Carries q y → call.cur done ≤ y → y < call.cur done + call.chunk done →
      (s.cellAt q y).src ≠ .user y

/-- Every older page of the base of page `p` is freed. -/
def Oldest (s : Engine n) (p : PageId) : Prop :=
  ∀ q < p, (s.pages q).base = (s.pages p).base → s.freed q = true

structure Coherent (file : File) (s : Engine n) : Prop where
  top : ∀ y p v, s.latest file y = (some p, v) → s.Carries p y ∧ s.cellAt p y = ⟨v, .user y⟩
  settled : ∀ y, (∀ p ∈ (s.latest file y).1, Written s p) →
    s.file.byte y = (s.latest file y).2
  under : ∀ y p, s.Carries p y → ¬ Written s p → (s.cellAt p y).src = .user y →
    ∃ q ∈ (s.latest file y).1, p ≤ q
  delivered : ∀ y p, s.Carries p y → ¬ Written s p → (s.cellAt p y).src ≠ .user y →
    (s.cellAt p y).val = s.file.byte y ∧ Oldest s p
  admitted : ∀ p ∈ s.s1.admitted, Oldest s p
  listed : ∀ p holes, s.s1.listing = some (p, holes) → ∀ x < zoneSize,
    ¬ (s.pages p).Covered x → Covers (holeRuns holes none) x
  fetched : ∀ p runs, s.s1.fetching = some (p, runs) → ∀ x < zoneSize, ¬ (s.pages p).Covered x →
    Covers runs x ∨ (s.scratch x).val = s.file.byte ((s.pages p).base + x) ∧
      (s.scratch x).src ≠ .user ((s.pages p).base + x)

theorem Oldest.step {p : PageId} (oldest : Oldest s p) (sound : Sound cfg s)
    (move : Move cfg s label s') (current : p < s.created) : Oldest s' p := by
  intro q older same
  have bases := base_stable (sound.refines move)
  rw [bases p current, bases q (lt_trans older current)] at same
  exact freed_mono sound move (oldest q older same)

/-- Two pages with a byte of the file in common have the same base. -/
theorem Placed.same_base (placed : Placed s) {p q : PageId} (first : p < s.created)
    (second : q < s.created) (left : s.InWindow p y) (right : s.InWindow q y) :
    (s.pages p).base = (s.pages q).base :=
  base_unique (placed p first).1 (placed q second).1 left.1 left.2 right.1 right.2

section Rivals

variable {batch : List PageId} {st : PwritevState} (position : s.s2 = .writing batch st)
include position

theorem lt_created_of_row (sound : Sound cfg s) {q : PageId} (row : q ∈ batch.drop st.i) :
    s.custody.Alive q :=
  sound.owned.live q (Custody.mem_pipe_of_tagged (by
    simpa [Engine.custody, position, Stage2.tagged] using List.mem_of_mem_drop row))

/-- A page without older pages of its base is the only one of them that Stage-2 can be writing. -/
theorem Scheduled.row_eq (scheduled : Scheduled cfg s) {p q : PageId} (row : q ∈ batch.drop st.i)
    (alive : s.custody.Alive p) (oldest : Oldest s p) (left : s.InWindow p y)
    (right : s.InWindow q y) : q = p := by
  have rowAlive := lt_created_of_row position scheduled.sound row
  have same := scheduled.placed.same_base alive.1 rowAlive.1 left right
  have le := scheduled.oldest position (List.mem_of_mem_drop row) alive same
  by_contra differs
  have freed := oldest q (Nat.lt_of_le_of_ne le differs) same.symm
  have live : s.freed q = false := rowAlive.2
  simp [live] at freed

theorem carries_of_row (sound : Sound cfg s) {q : PageId} (row : q ∈ batch.drop st.i)
    (window : s.InWindow q y) : s.Carries q y := by
  have alive := lt_created_of_row position sound row
  have full : scrapPageIsFull (s.pages q) = true := sound.ready.filled q (by
    simp [Engine.outgoing, position, Stage2.pages, Stage2.tagged, List.mem_of_mem_drop row])
  refine ⟨alive.1, window, (scrapPageIsFull_iff (sound.ready.wellFormed q)).mp full _ ?_⟩
  have := window.1
  have := window.2
  omega

end Rivals

/-! ## Stage-1 past the guard -/

/-- Stage-1's page is the first in line for Queue-1's thread, and what is past Stage-1 is in the
guard. -/
theorem Scheduled.oldest_of_guard (scheduled : Scheduled cfg s) {p : PageId}
    {holes : List ScrapEntry} (position : s.s1 = .guardWait p holes)
    (quiet : s.wb (wbSlot (s.pages p).base) = 0) : Oldest s p := by
  intro q older same
  by_contra alive
  have sound := scheduled.sound
  have hand : s.custody.late = p :: s.q1 := by simp [Engine.custody, position, Stage1.pages]
  have current : p < s.created := (sound.owned.live p (Custody.mem_pipe_of_waiting (by
    simp [Custody.waiting, hand]))).1
  have alive : s.custody.Alive q := ⟨lt_trans older current, Bool.eq_false_iff.mpr alive⟩
  have queued := scheduled.orderly.queued_of_older scheduled.newest alive older current same.symm
  have sorted := scheduled.orderly.sorted
  have split : s.custody.pipe = (s.s2.pages ++ s.q2) ++ p :: s.q1 := by
    simp [Custody.pipe, Custody.waiting, Engine.custody, Stage2.pages, position, Stage1.pages]
  rw [split] at queued sorted
  rcases List.mem_append.mp queued with past | late
  · have guarded : q ∈ s.guarded := by
      simp only [Engine.guarded, List.mem_append] at past ⊢
      exact .inl (.inl (past.imp_left .inr))
    have counted := sound.guard.tally.pos_of_mem guarded
    rw [same] at counted
    omega
  · rcases List.mem_cons.mp late with rfl | behind
    · exact lt_irrefl _ older
    · have line := (List.pairwise_append.mp sorted).2.1
      have after := (List.pairwise_cons.mp line).1 q behind same.symm
      exact absurd after (Nat.not_lt.mpr older.le)

/-- A `pread` that is short only at the end of the file delivers what the file holds. -/
theorem readRun_whole {p : PageId} {run : Segment} {delivered : Nat}
    (whole : delivered = s.file.available ((s.pages p).base + run.offset) run.size) {x : Nat}
    (before : run.Contains x ∨ (s.scratch x).val = s.file.byte ((s.pages p).base + x) ∧
      (s.scratch x).src ≠ .user ((s.pages p).base + x)) :
    ((readRun (s.deviceCell p) (s.zeroCell p) run (.count delivered) s.scratch).2 x).val =
        s.file.byte ((s.pages p).base + x) ∧
      ((readRun (s.deviceCell p) (s.zeroCell p) run (.count delivered) s.scratch).2 x).src ≠
        .user ((s.pages p).base + x) := by
  simp only [readRun]
  split
  · exact ⟨rfl, by simp [Engine.deviceCell]⟩
  · next missed =>
    split
    · next inside =>
      -- The byte lies past the end of the file.
      refine ⟨?_, by simp [Engine.zeroCell]⟩
      have beyond : run.offset + delivered ≤ x := Nat.not_lt.mp fun early => missed ⟨inside, early⟩
      obtain ⟨low, high⟩ := inside
      rw [Segment.stop] at high
      have zero := s.file.byte_of_available_le (x := x - run.offset) (by omega)
        (whole ▸ (by omega : delivered ≤ x - run.offset))
      rw [show (s.pages p).base + run.offset + (x - run.offset) = (s.pages p).base + x by omega] at zero
      exact zero.symm
    · next outside => exact before.resolve_left outside

theorem admitted_step (scheduled : Scheduled cfg s) (move : Move cfg s label s')
    (before : ∀ p ∈ s.s1.admitted, Oldest s p) : ∀ p ∈ s'.s1.admitted, Oldest s' p := by
  intro p admitted
  have sound := scheduled.sound
  have kept : p ∈ s.s1.admitted → Oldest s' p := by
    intro earlier
    have current : p < s.created := by
      apply sound.hand_lt_created
      cases position : s.s1 with
      | finish q ok => cases ok <;> simp_all [Stage1.admitted, Stage1.pages]
      | _ => simp_all [Stage1.admitted, Stage1.pages]
    exact (before p earlier).step sound move current
  have elsewhere : s'.s1 = s.s1 → Oldest s' p := fun same => kept (same ▸ admitted)
  have original := move
  cases move with
  | fg move => exact elsewhere (by cases move <;> rfl)
  | stage2 move => exact elsewhere (by cases move <;> rfl)
  | closer move => exact elsewhere (by cases move <;> rfl)
  | stage1 move =>
    cases move with
    | @guardPass q holes position quiet =>
      obtain rfl : q = p := by simpa [Stage1.admitted] using admitted
      refine (scheduled.oldest_of_guard position quiet).step sound original ?_
      exact sound.hand_lt_created (by simp [position, Stage1.pages])
    | readStart position | readEnd position | preadOk position =>
      exact kept (by rw [position]; exact admitted)
    | _ => simp [Stage1.admitted] at admitted

namespace Coherent

variable (coherent : Coherent file s) (scheduled : Scheduled cfg s) (recorded : Recorded s)
  (tracked : Tracked s) (move : Move cfg s label s')

include coherent scheduled move

theorem top_step : ∀ y p v, s'.latest file y = (some p, v) →
    s'.Carries p y ∧ s'.cellAt p y = ⟨v, .user y⟩ := by
  intro y p v latest
  have kept : ∀ {q}, s.latest file y = (some q, v) → SameByte s s' q y →
      s'.Carries q y ∧ s'.cellAt q y = ⟨v, .user y⟩ := by
    intro q before same
    obtain ⟨carries, cell⟩ := coherent.top y q v before
    exact ⟨(same.after carries).1, (same.after carries).2.trans cell⟩
  cases byte_step scheduled.toOrdinary move file y with
  | quiet same _ pages | writeback _ _ _ same _ pages => exact kept (same ▸ latest) (pages p)
  | @merge t call done q created position inside w value now _ carries cell =>
    obtain ⟨rfl, rfl⟩ : q = p ∧ w = v := by simpa using now.symm.trans latest
    exact ⟨carries, cell⟩
  | @fill q position window hole same _ _ _ pages =>
    have before := same ▸ latest
    refine kept before (pages p ?_)
    rintro rfl
    exact hole (coherent.top y p v before).1.covered
  | direct _ _ _ now => simp [now] at latest

/-- When the page of the latest write is completed, the file shows it. -/
theorem byte_of_newly_written {p : PageId} (latest : p ∈ (s.latest file y).1)
    (before : ¬ Written s p) (after : Written s' p) : s'.file.byte y = (s.latest file y).2 := by
  rcases written_cases move after with
    old | ⟨batch, st, result, next, position, fits, outcome, bytes, -, completed⟩
  · exact absurd old before
  · have shown := coherent.top y p (s.latest file y).2 (by rw [← Option.mem_def.mp latest])
    have consecutive := scheduled.rows.batch
    rw [position] at consecutive
    obtain ⟨j, at_, landed⟩ := row_of_completed outcome completed
    rw [bytes]
    exact (byte_of_completed consecutive fits at_ landed shown.1.window).trans (by rw [shown.2])

include tracked in
theorem settled_step : ∀ y, (∀ p ∈ (s'.latest file y).1, Written s' p) →
    s'.file.byte y = (s'.latest file y).2 := by
  intro y written
  have sound := scheduled.sound
  -- The latest write stays and the file keeps its byte, unless a page was completed.
  have kept : s'.latest file y = s.latest file y →
      ((∀ p ∈ (s.latest file y).1, Written s p) → s'.file.byte y = s.file.byte y) →
      s'.file.byte y = (s'.latest file y).2 := by
    intro same byte
    rw [same] at written ⊢
    by_cases before : ∀ p ∈ (s.latest file y).1, Written s p
    · rw [byte before]
      exact coherent.settled y before
    · simp only [not_forall] at before
      obtain ⟨p, latest, unwritten⟩ := before
      exact coherent.byte_of_newly_written scheduled move latest unwritten (written p latest)
  cases byte_step scheduled.toOrdinary move file y with
  | quiet same byte => exact kept same fun _ => byte
  | fill _ _ _ same byte => exact kept same fun _ => byte
  | direct _ _ _ now byte => rw [byte, now]
  | @merge t call done p created position inside v value now byte =>
    -- The page of a writer in its critical section is not written.
    have written : Written s' p := written p (by rw [now]; rfl)
    rcases written_cases move written with old | ⟨batch, st, -, next, at_, -, -, -, -, completed⟩
    · exact absurd old (tracked.unwritten_of_held sound position)
    · have flushing := sound.owned.flushing p (by
        simpa [Engine.custody, at_, Stage2.tagged] using
          List.mem_of_mem_drop (completed_subset batch st next p completed))
      exact absurd flushing (ne_flushing_of_held sound position)
  | @writeback batch st q position row window same byte =>
    refine kept same fun before => ?_
    have carries := carries_of_row position sound row window
    have unwritten : ¬ Written s q := tracked.unfinished q (by rw [position]; exact row)
    by_cases user : (s.cellAt q y).src = .user y
    · obtain ⟨p, latest, le⟩ := coherent.under y q carries unwritten user
      have shown := coherent.top y p (s.latest file y).2 (by rw [← Option.mem_def.mp latest])
      rcases Nat.lt_or_eq_of_le le with older | rfl
      · have same := scheduled.placed.same_base carries.current shown.1.current window shown.1.window
        have freed := tracked.ordered p (before p latest) q older same
        have alive : s.freed q = false := (lt_created_of_row position sound row).2
        simp [alive] at freed
      · exact absurd (before q latest) unwritten
    · rw [byte]
      exact (coherent.delivered y q carries unwritten user).1

theorem under_step (unshadowed : Unshadowed s) (clear : DirectClear s label) :
    ∀ y p, s'.Carries p y → ¬ Written s' p → (s'.cellAt p y).src = .user y →
      ∃ q ∈ (s'.latest file y).1, p ≤ q := by
  intro y p carries unwritten user
  have unwritten : ¬ Written s p := fun written => unwritten (log_mono move written)
  have kept : s'.latest file y = s.latest file y → SameByte s s' p y →
      ∃ q ∈ (s'.latest file y).1, p ≤ q := by
    intro latest same
    have before := same.before carries
    rw [latest]
    exact coherent.under y p before unwritten (by rw [← (same.after before).2]; exact user)
  cases byte_step scheduled.toOrdinary move file y with
  | quiet latest _ pages => exact kept latest (pages p)
  | writeback _ _ _ latest _ pages => exact kept latest (pages p)
  | @merge t call done q created position inside v value latest _ _ _ pages =>
    refine ⟨q, by rw [latest]; rfl, ?_⟩
    by_contra newer
    have newer : q < p := Nat.lt_of_not_le newer
    have same := pages p (Nat.ne_of_gt newer)
    have before := same.before carries
    refine unshadowed t call done q created position p y newer before inside.1 inside.2 ?_
    rw [← (same.after before).2]
    exact user
  | @fill q position window hole latest _ _ cell pages =>
    by_cases filled : p = q
    · subst filled
      -- What Stage-1 delivered is not a user byte.
      have low := window.1
      have high := window.2
      rcases coherent.fetched p [] (by rw [position]; rfl) (y - (s.pages p).base) (by omega) hole with
        later | ⟨-, foreign⟩
      · exact absurd later covers_nil
      · rw [Nat.add_sub_of_le low] at foreign
        rw [cell] at user
        exact absurd user foreign
    · exact kept latest (pages p filled)
  | @direct t call result step position inside _ _ pages =>
    subst step
    have before := (pages p).before carries
    exact absurd before.covered
      (clear call position y inside.1 inside.2 p before.current unwritten before.window).1

include recorded in
theorem delivered_step (clear : DirectClear s label) :
    ∀ y p, s'.Carries p y → ¬ Written s' p → (s'.cellAt p y).src ≠ .user y →
      (s'.cellAt p y).val = s'.file.byte y ∧ Oldest s' p := by
  intro y p carries unwritten foreign
  have sound := scheduled.sound
  have unwritten : ¬ Written s p := fun written => unwritten (log_mono move written)
  have kept : SameByte s s' p y → (s.Carries p y → Oldest s p →
      s.file.byte y = (s.cellAt p y).val → s'.file.byte y = (s.cellAt p y).val) →
      (s'.cellAt p y).val = s'.file.byte y ∧ Oldest s' p := by
    intro same byte
    have before := same.before carries
    have cell := (same.after before).2
    obtain ⟨value, oldest⟩ := coherent.delivered y p before unwritten (by rw [← cell]; exact foreign)
    refine ⟨?_, oldest.step sound move before.current⟩
    rw [cell, byte before oldest value.symm]
  cases byte_step scheduled.toOrdinary move file y with
  | quiet _ byte pages => exact kept (pages p) fun _ _ value => byte.trans value
  | @merge t call done q created position inside v value latest byte carries' cell pages =>
    by_cases merged : p = q
    · subst merged
      -- The bytes of a merge are user data.
      simp [cell] at foreign
    · exact kept (pages p merged) fun _ _ value => byte.trans value
  | @fill q position window hole latest byte carries' cell pages =>
    by_cases filled : p = q
    · subst filled
      have low := window.1
      have high := window.2
      have current : p < s.created := sound.hand_lt_created (by simp [position, Stage1.pages])
      -- Stage-1 was let through the guard, so no older page of the base is on its way to the disk.
      have oldest := coherent.admitted p (by rw [position]; rfl)
      refine ⟨?_, oldest.step sound move current⟩
      rcases coherent.fetched p [] (by rw [position]; rfl) (y - (s.pages p).base) (by omega) hole with
        later | ⟨value, -⟩
      · exact absurd later covers_nil
      · rw [Nat.add_sub_of_le low] at value
        rw [cell, byte, value]
    · exact kept (pages p filled) fun _ _ value => byte.trans value
  | @direct t call result step position inside _ _ pages =>
    -- A direct write touches no byte that a page is still carrying.
    subst step
    have before := (pages p).before carries
    exact absurd before.covered
      (clear call position y inside.1 inside.2 p before.current unwritten before.window).1
  | @writeback batch st q position row window latest byte pages =>
    refine kept (pages p) fun before oldest _ => ?_
    -- The page that reaches the disk is the oldest of its base, so it is this one.
    have alive : s.custody.Alive p :=
      ⟨before.current, Bool.eq_false_iff.mpr fun freed => unwritten (recorded.freed p freed)⟩
    rw [byte, scheduled.row_eq position row alive oldest before.window window]

theorem listed_step : ∀ p holes, s'.s1.listing = some (p, holes) → ∀ x < zoneSize,
    ¬ (s'.pages p).Covered x → Covers (holeRuns holes none) x := by
  intro p holes listing x inside hole
  have sound := scheduled.sound
  have kept : s.s1.listing = some (p, holes) → Covers (holeRuns holes none) x := by
    intro before
    have current : p < s.created := by
      apply sound.hand_lt_created
      cases position : s.s1 <;> simp_all [Stage1.listing, Stage1.pages]
    exact coherent.listed p holes before x inside fun covered =>
      hole (covered_mono sound move current covered)
  have elsewhere : s'.s1 = s.s1 → Covers (holeRuns holes none) x := fun same => kept (same ▸ listing)
  have original := move
  cases move with
  | fg move => exact elsewhere (by cases move <;> rfl)
  | stage2 move => exact elsewhere (by cases move <;> rfl)
  | closer move => exact elsewhere (by cases move <;> rfl)
  | stage1 move =>
    cases move with
    | @inspectHoles q position free holes idle =>
      obtain ⟨rfl, rfl⟩ : q = p ∧ scrapPageHoleRanges (s.pages q) (cfg.maxEntries + 1) = _ := by
        simpa [Stage1.listing] using listing
      have wellFormed := sound.ready.wellFormed q
      apply covers_holeRuns_of_covers (scrapPageHoleRanges_separated wellFormed _)
        (scrapPageHoleRanges_bounded wellFormed)
      exact (covers_scrapPageHoleRanges x wellFormed).mpr ⟨inside, hole⟩
    | guardPass position => exact kept (by rw [position]; exact listing)
    | _ => simp [Stage1.listing] at listing

include tracked in
/-- What Stage-1 has read stays what the file holds. -/
theorem fetched_kept (clear : DirectClear s label) {p : PageId} {runs : List Segment}
    (before : s.s1.fetching = some (p, runs)) {x : Nat} (inside : x < zoneSize)
    (hole : ¬ (s'.pages p).Covered x) :
    Covers runs x ∨ (s.scratch x).val = s'.file.byte ((s'.pages p).base + x) ∧
      (s.scratch x).src ≠ .user ((s'.pages p).base + x) := by
  have sound := scheduled.sound
  have hand : s.s1.pages = [p] ∧ s.s1.admitted = some p := by
    cases position : s.s1 with
    | finish q ok => cases ok <;> simp_all [Stage1.fetching, Stage1.pages, Stage1.admitted]
    | _ => simp_all [Stage1.fetching, Stage1.pages, Stage1.admitted]
  have current := sound.hand_lt_created (p := p) (by simp [hand.1])
  have waiting : p ∈ s.custody.waiting := by simp [Custody.waiting, Engine.custody, hand.1]
  rw [base_stable (sound.refines move) p current]
  rcases coherent.fetched p runs before x inside fun covered =>
    hole (covered_mono sound move current covered) with later | ⟨value, foreign⟩
  · exact .inl later
  · have window : s.InWindow p ((s.pages p).base + x) := ⟨Nat.le_add_right _ _, by omega⟩
    cases byte_step scheduled.toOrdinary move file ((s.pages p).base + x) with
    | quiet _ byte | merge _ _ _ _ _ byte | fill _ _ _ _ byte => exact .inr ⟨by rw [byte, value], foreign⟩
    | @direct t call result step position reached _ _ pages =>
      subst step
      have missed := (clear call position _ reached.1 reached.2 p current
        (tracked.unwritten_of_waiting sound waiting) window).2 runs before
      rw [Nat.add_sub_cancel_left] at missed
      exact .inl missed
    | @writeback batch st q position row reached _ byte pages =>
      -- Stage-2 would be writing the page in Stage-1's hand.
      have alive := sound.owned.live p (Custody.mem_pipe_of_waiting waiting)
      obtain rfl := scheduled.row_eq position row alive (coherent.admitted p hand.2) window reached
      have tagged : q ∈ s.custody.tagged := by
        simpa [Engine.custody, position, Stage2.tagged] using List.mem_of_mem_drop row
      exact absurd waiting (List.disjoint_of_nodup_append sound.owned.nodup tagged)

include tracked in
theorem fetched_step (clear : DirectClear s label) (whole : WholeReads s label) :
    ∀ p runs, s'.s1.fetching = some (p, runs) → ∀ x < zoneSize, ¬ (s'.pages p).Covered x →
      Covers runs x ∨ (s'.scratch x).val = s'.file.byte ((s'.pages p).base + x) ∧
        (s'.scratch x).src ≠ .user ((s'.pages p).base + x) := by
  intro p runs fetching x inside hole
  have elsewhere : s'.s1 = s.s1 → s'.scratch = s.scratch → Covers runs x ∨
      (s'.scratch x).val = s'.file.byte ((s'.pages p).base + x) ∧
        (s'.scratch x).src ≠ .user ((s'.pages p).base + x) := by
    intro same scratch
    rw [scratch]
    exact coherent.fetched_kept scheduled tracked move clear (same ▸ fetching) inside hole
  have original := move
  cases move with
  | fg move => exact elsewhere (by cases move <;> rfl) (by cases move <;> rfl)
  | stage2 move => exact elsewhere (by cases move <;> rfl) (by cases move <;> rfl)
  | closer move => exact elsewhere (by cases move <;> rfl) (by cases move <;> rfl)
  | stage1 move =>
    cases move with
    | @readStart q holes position =>
      obtain ⟨rfl, rfl⟩ : q = p ∧ holeRuns holes none = runs := by
        simpa [Stage1.fetching] using fetching
      exact .inl (coherent.listed q holes (by rw [position]; rfl) x inside hole)
    | readEnd position =>
      exact coherent.fetched_kept scheduled tracked original clear (by rw [position]; exact fetching)
        inside hole
    | @preadOk q run rest delivered position =>
      obtain ⟨rfl, rfl⟩ : q = p ∧ rest = runs := by simpa [Stage1.fetching] using fetching
      have count := whole (q, run) (by rw [position]; rfl)
      have before := coherent.fetched q (run :: rest) (by rw [position]; rfl) x inside hole
      rw [covers_cons] at before
      by_cases later : Covers rest x
      · exact .inl later
      · exact .inr (readRun_whole count (before.imp_left fun first => first.resolve_right later))
    | _ => simp [Stage1.fetching] at fetching

include recorded tracked in
theorem step (unshadowed : Unshadowed s) (clear : DirectClear s label)
    (whole : WholeReads s label) : Coherent file s' where
  top := coherent.top_step scheduled move
  settled := coherent.settled_step scheduled tracked move
  under := coherent.under_step scheduled move unshadowed clear
  delivered := coherent.delivered_step scheduled recorded move clear
  admitted := admitted_step scheduled move coherent.admitted
  listed := coherent.listed_step scheduled move
  fetched := coherent.fetched_step scheduled tracked move clear whole

omit coherent scheduled move in
theorem init (cfg : Config) (file : File) (scratch : Nat → UInt8) :
    Coherent file (Engine.init n cfg file scratch) := by
  have blank : ∀ p y, ¬ (Engine.init n cfg file scratch).Carries p y := fun p y carries => by
    simpa [Engine.init] using carries.current
  exact
    { top := by simp [Engine.latest, Engine.init]
      settled := fun y _ => rfl
      under := fun y p carries => absurd carries (blank p y)
      delivered := fun y p carries => absurd carries (blank p y)
      admitted := by simp [Engine.init, Stage1.admitted]
      listed := by simp [Engine.init, Stage1.listing]
      fetched := by simp [Engine.init, Stage1.fetching] }

end Coherent

end NoxDB

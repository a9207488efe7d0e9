import NoxDB.Engine.Eviction
import NoxDB.ScrapPage.Reads

/-! # Only assembled pages reach the device

Every covered byte of a page, and every byte of the scratch zone that Stage-1 is going
to use, was copied from a user buffer or delivered by Stage-1 for the very file offset
it stands for.  A page in Queue-2 or in Stage-2's hands is covered entirely, and the
pages of a batch follow each other on the device, so a buffer is assembled throughout.
-/

namespace NoxDB

open Function (update)
open Library.Segments
open Library.Runs

variable {n : Nat}

/-- The cell of page `p` for file offset `y` was copied from a user buffer for `y`, or Stage-1
delivered it for `p` and `y`. -/
def Assembled (p : PageId) (y : Nat) (cell : Cell) : Prop :=
  cell.src = .user y ∨ cell.src = .device p y ∨ cell.src = .zero p y ∧ cell.val = 0

/-- The page in Stage-1's hand whose holes it inspected, and the runs it has still to read. -/
def Stage1.unread : Stage1 → Option (PageId × List Segment)
  | .guardWait p holes | .readStart p holes => some (p, holeRuns holes none)
  | .reading p runs => some (p, runs)
  | .finish p true => some (p, [])
  | _ => none

structure Assembly (s : Engine n) : Prop where
  zones : ∀ p < s.created, ∀ x, (s.pages p).Covered x →
    Assembled p ((s.pages p).base + x) ((s.pages p).data x)
  scratch : ∀ p runs, s.s1.unread = some (p, runs) → ∀ x < zoneSize, ¬ (s.pages p).Covered x →
    Covers runs x ∨ Assembled p ((s.pages p).base + x) (s.scratch x)

variable {cfg : Config} {file : File} {scratch : Nat → UInt8} {s s' : Engine n} {label : Label n}

/-- The cells of a chunk carry the offset they are copied to. -/
theorem Call.cells_src (call : Call) {done i : Nat} (inside : i < call.chunk done) :
    (call.cells done i).src = .user (call.cur done + i) := by
  have place := call.base_add_intra done
  have room := call.intra_add_chunk_le done
  have top := call.base_add_zone_le done
  have noWrap : call.cur done + i < word := by omega
  rw [Call.cur] at noWrap ⊢
  rw [Call.cells, ← Nat.mod_add_mod, Nat.mod_eq_of_lt noWrap]

/-- Coverage only grows. -/
theorem covered_mono (sound : Sound cfg s) (move : Move cfg s label s') {p : PageId}
    (old : p < s.created) {x : Nat} (covered : (s.pages p).Covered x) : (s'.pages p).Covered x := by
  cases content_step move with
  | kept pages => exact ((pages p old).covered x).mpr covered
  | @fill q _ _ pages =>
    rw [pages]
    by_cases filled : p = q
    · subst filled
      rw [Function.update_self, covered_filled]
      exact covered.lt (sound.ready.wellFormed p)
    · rwa [Function.update_of_ne filled]
  | @merge t call done q created decision position way accepted pages =>
    rw [pages]
    by_cases merged : p = q
    · subst merged
      have more := sound.ready.progress t call done _ position
      rw [Function.update_self, way.covered (sound.ready.wellFormed p) (Call.chunk_pos more)]
      exact .inl covered
    · rwa [Function.update_of_ne merged]

theorem readRun_assembled (p : PageId) {run : Segment} (delivered : Nat) {x : Nat}
    (before : run.Contains x ∨ Assembled p ((s.pages p).base + x) (s.scratch x)) :
    Assembled p ((s.pages p).base + x)
      ((readRun (s.deviceCell p) (s.zeroCell p) run (.count delivered) s.scratch).2 x) := by
  simp only [readRun]
  split
  · exact .inr (.inl rfl)
  · split
    · exact .inr (.inr ⟨rfl, rfl⟩)
    · next outside => exact before.resolve_left outside

theorem unread_lt_created (sound : Sound cfg s) {p : PageId} {runs : List Segment}
    (unread : s.s1.unread = some (p, runs)) : p < s.created := by
  have hand : p ∈ s.s1.pages := by
    cases position : s.s1 with
    | finish q ok => cases ok <;> simp_all [Stage1.unread, Stage1.pages]
    | _ => simp_all [Stage1.unread, Stage1.pages]
  exact sound.hand_lt_created hand

namespace Assembly

theorem init (cfg : Config) (file : File) (scratch : Nat → UInt8) :
    Assembly (Engine.init n cfg file scratch) where
  zones := by simp [Engine.init]
  scratch := by simp [Engine.init, Stage1.unread]

theorem zones_step (assembly : Assembly s) (sound : Sound cfg s) (aimed : Aimed s)
    (move : Move cfg s label s') :
    ∀ p < s'.created, ∀ x, (s'.pages p).Covered x →
      Assembled p ((s'.pages p).base + x) ((s'.pages p).data x) := by
  intro p current x covered
  rcases old_or_new move current with old | ⟨t, call, done, zone, -, page⟩
  · have before := assembly.zones p old
    cases content_step move with
    | kept pages =>
      have same := pages p old
      rw [same.base, same.data]
      exact before x ((same.covered x).mp covered)
    | @fill q position _ pages =>
      rw [pages] at covered ⊢
      by_cases filled : p = q
      · subst filled
        rw [Function.update_self] at covered ⊢
        have inside := (covered_filled _ _ _ _).mp covered
        have wellFormed := sound.ready.wellFormed p
        rw [data_filled _ _ wellFormed inside]
        -- Where there was user data it stays; the holes get what Stage-1 has read for them.
        by_cases user : (s.pages p).Covered x
        · rw [if_pos user]
          exact before x user
        · rw [if_neg user]
          have read := assembly.scratch p [] (by rw [position]; rfl) x inside user
          exact read.resolve_left covers_nil
      · rw [Function.update_of_ne filled] at covered ⊢
        exact before x covered
    | @merge t call done q created decision position way accepted pages =>
      rw [pages] at covered ⊢
      by_cases merged : p = q
      · subst merged
        have more := sound.ready.progress t call done _ position
        have base : (s.pages p).base = call.base done := aimed t call done _ p position rfl
        rw [Function.update_self] at covered ⊢
        rw [way.base, way.data]
        by_cases written : decision.merged = true ∧ call.intra done ≤ x ∧
            x < call.intra done + call.chunk done
        · -- The chunk itself: its cells carry the offset they were copied to.
          have place := call.base_add_intra done
          have offset : (s.pages p).base + x = call.cur done + (x - call.intra done) := by
            rw [base]
            omega
          rw [if_pos written, offset]
          exact .inl (call.cells_src (by omega))
        · rw [if_neg written]
          have grown := (way.covered (sound.ready.wellFormed p) (Call.chunk_pos more) x).mp covered
          exact before x (grown.resolve_right written)
      · rw [Function.update_of_ne merged] at covered ⊢
        exact before x covered
  · -- A page that was just created covers nothing.
    rw [page] at covered
    simp [ScrapPage.Covered, scrapPageAlloc] at covered

/-- Stage-1 takes a step that keeps the page and the scratch zone. -/
theorem scratch_keep (assembly : Assembly s) (sound : Sound cfg s) (move : Move cfg s label s')
    (same : s'.scratch = s.scratch)
    (unread : ∀ p runs, s'.s1.unread = some (p, runs) → s.s1.unread = some (p, runs)) :
    ∀ p runs, s'.s1.unread = some (p, runs) → ∀ x < zoneSize, ¬ (s'.pages p).Covered x →
      Covers runs x ∨ Assembled p ((s'.pages p).base + x) (s'.scratch x) := by
  intro p runs position x inside hole
  have before := unread p runs position
  have old := unread_lt_created sound before
  have earlier := assembly.scratch p runs before x inside fun covered =>
    hole (covered_mono sound move old covered)
  rwa [same, base_stable (sound.refines move) p old]

theorem scratch_stage1 (assembly : Assembly s) (sound : Sound cfg s)
    (move : Stage1Move cfg s label s') :
    ∀ p runs, s'.s1.unread = some (p, runs) → ∀ x < zoneSize, ¬ (s'.pages p).Covered x →
      Covers runs x ∨ Assembled p ((s'.pages p).base + x) (s'.scratch x) := by
  have keep := assembly.scratch_keep sound (.stage1 move)
  cases move with
  | guardPass position | readStart position | readEnd position =>
    exact keep rfl fun p runs unread => by rw [position]; exact unread
  | @inspectHoles p position free holes idle =>
    rintro q runs ⟨⟩ x inside hole
    have wellFormed := sound.ready.wellFormed p
    left
    apply covers_holeRuns_of_covers (scrapPageHoleRanges_separated wellFormed _)
      (scrapPageHoleRanges_bounded wellFormed)
    exact (covers_scrapPageHoleRanges x wellFormed).mpr ⟨inside, hole⟩
  | @preadOk p run runs delivered position =>
    rintro q rest ⟨⟩ x inside hole
    have before := assembly.scratch p (run :: runs) (by rw [position]; rfl) x inside hole
    rw [covers_cons] at before
    by_cases later : Covers runs x
    · exact .inl later
    · right
      exact readRun_assembled p delivered (before.imp_left fun first => first.resolve_right later)
  | pop | exit | inspectFull | inspectBusy | forwardEnter | forwardPush | busyPush | wake
  | readFailed | fill | drop | dropDec | fillEnter | fillPush | preadFail =>
    rintro q runs ⟨⟩

theorem step (assembly : Assembly s) (sound : Sound cfg s) (aimed : Aimed s)
    (move : Move cfg s label s') : Assembly s' := by
  refine ⟨assembly.zones_step sound aimed move, ?_⟩
  have original := move
  cases move with
  | stage1 move => exact assembly.scratch_stage1 sound move
  | fg move =>
    have same : s'.scratch = s.scratch ∧ s'.s1 = s.s1 := by cases move <;> exact ⟨rfl, rfl⟩
    exact assembly.scratch_keep sound original same.1 fun p runs => by rw [same.2]; exact id
  | stage2 move =>
    have same : s'.scratch = s.scratch ∧ s'.s1 = s.s1 := by cases move <;> exact ⟨rfl, rfl⟩
    exact assembly.scratch_keep sound original same.1 fun p runs => by rw [same.2]; exact id
  | closer move =>
    have same : s'.scratch = s.scratch ∧ s'.s1 = s.s1 := by cases move <;> exact ⟨rfl, rfl⟩
    exact assembly.scratch_keep sound original same.1 fun p runs => by rw [same.2]; exact id

end Assembly

/-! ## Bases and batches -/

/-- Every page is a window of the 64-bit offsets. -/
def Placed (s : Engine n) : Prop :=
  ∀ p < s.created, zoneSize ∣ (s.pages p).base ∧ (s.pages p).base + zoneSize ≤ word

theorem Placed.step (placed : Placed s) (sound : Sound cfg s) (move : Move cfg s label s') :
    Placed s' := by
  intro p current
  rcases old_or_new move current with old | ⟨t, call, done, zone, -, page⟩
  · rw [base_stable (sound.refines move) p old]
    exact placed p old
  · rw [page]
    exact ⟨call.base_aligned done, call.base_add_zone_le done⟩

/-- The batch Stage-2 is collecting or writing. -/
def Stage2.batch : Stage2 → List PageId
  | .collect batch => batch
  | .check batch next | .pushBack batch next => batch ++ [next]
  | .detaching done todo => done ++ todo
  | .tagging done p todo => done ++ p :: todo
  | .writeStart batch | .writing batch _ => batch
  | _ => []

/-- The pages follow each other on the device from `offset` on. -/
def Consecutive (s : Engine n) (offset : Nat) (pages : List PageId) : Prop :=
  ∀ (i : Nat) p, pages[i]? = some p → p < s.created ∧
    (s.pages p).base = (offset + i * zoneSize) % word

theorem Consecutive.lt_created {offset : Nat} {pages : List PageId}
    (rows : Consecutive s offset pages) {p : PageId} (among : p ∈ pages) : p < s.created := by
  obtain ⟨i, inside, rfl⟩ := List.mem_iff_getElem.mp among
  exact (rows i _ (List.getElem?_eq_getElem inside)).1

theorem Consecutive.step {offset : Nat} {pages : List PageId} (rows : Consecutive s offset pages)
    (sound : Sound cfg s) (move : Move cfg s label s') : Consecutive s' offset pages := by
  intro i p at_
  obtain ⟨old, base⟩ := rows i p at_
  exact ⟨lt_of_lt_of_le old (created_mono move), by
    rw [base_stable (sound.refines move) p old]; exact base⟩

structure Rows (s : Engine n) : Prop where
  nonempty : ∀ batch next, s.s2 = .collect batch ∨ s.s2 = .check batch next → batch ≠ []
  batch : Consecutive s (s.pages (s.s2.batch.headD 0)).base s.s2.batch
  issued : ∀ offset pages zones, .issued offset pages zones ∈ s.log →
    Consecutive s offset pages ∧ ∀ p ∈ pages, scrapPageIsFull (s.pages p) = true

/-- A writeback in the history was there before or is the one this step issued. -/
theorem issued_cases (move : Move cfg s label s') {offset : Nat} {pages : List PageId}
    {zones : List (Nat → Cell)} (issued : .issued offset pages zones ∈ s'.log) :
    .issued offset pages zones ∈ s.log ∨ ∃ batch st, s.s2 = .writing batch st ∧
      offset = (s.pages (batch.headD 0)).base + st.i * zoneSize ∧ pages = batch.drop st.i := by
  have old : ∀ events : List (Event n), s'.log = events ++ s.log →
      (∀ event ∈ events, event.plain = true) → .issued offset pages zones ∈ s.log := by
    intro events log plain
    rw [log] at issued
    rcases List.mem_append.mp issued with new | old
    · simpa [Event.plain] using plain _ new
    · exact old
  cases effect move with
  | quiet events log plain => exact .inl (old events log plain)
  | fill _ _ log => exact .inl (log ▸ issued)
  | direct _ _ _ _ log => exact .inl (by simpa [log] using issued)
  | merge _ _ _ after before log plain =>
    rw [log] at issued
    simp only [List.mem_append, List.mem_cons, reduceCtorEq, false_or] at issued
    rcases issued with new | new | old
    · simpa [Event.plain] using plain _ (List.mem_append_left _ new)
    · simpa [Event.plain] using plain _ (List.mem_append_right _ new)
    · exact .inl old
  | @writeback batch st result after position _ _ _ log =>
    rw [log] at issued
    simp only [List.mem_append, List.mem_reverse, List.mem_map, List.mem_cons] at issued
    rcases issued with ⟨q, -, ⟨⟩⟩ | new | old
    · obtain ⟨rfl, rfl, rfl⟩ := Event.issued.inj new
      exact .inr ⟨batch, st, position, rfl, rfl⟩
    · exact .inl old

namespace Rows

theorem init (cfg : Config) (file : File) (scratch : Nat → UInt8) :
    Rows (Engine.init n cfg file scratch) := by
  refine ⟨?_, ?_, ?_⟩ <;> simp [Engine.init, Consecutive, Stage2.batch]

/-- A step that leaves the batch alone. -/
theorem batch_keep (rows : Rows s) (sound : Sound cfg s) (move : Move cfg s label s')
    (same : s'.s2.batch = s.s2.batch) :
    Consecutive s' (s'.pages (s'.s2.batch.headD 0)).base s'.s2.batch := by
  rw [same]
  have carried := rows.batch.step sound move
  cases batch : s.s2.batch with
  | nil => exact fun i p at_ => by simp at at_
  | cons first rest =>
    rw [batch] at carried
    have old := (rows.batch 0 first (by rw [batch]; rfl)).1
    rwa [List.headD_cons, ← base_stable (sound.refines move) first old] at carried

theorem batch_stage2 (rows : Rows s) (sound : Sound cfg s) (placed : Placed s)
    (move : Stage2Move s label s') :
    Consecutive s' (s'.pages (s'.s2.batch.headD 0)).base s'.s2.batch := by
  have keep := rows.batch_keep sound (.stage2 move)
  have empty : s'.s2.batch = [] →
      Consecutive s' (s'.pages (s'.s2.batch.headD 0)).base s'.s2.batch := by
    intro none i p at_
    simp [none] at at_
  have settled := sound.ready.settled
  cases move with
  -- A batch starts with the page that was popped, and its base is the first offset.
  | @poppedGo p position idle =>
    intro i q at_
    obtain ⟨rfl, rfl⟩ : i = 0 ∧ q = p := by
      cases i with
      | zero => simpa [Stage2.batch, eq_comm] using at_
      | succ i => simp [Stage2.batch] at at_
    have old : q < s.created := sound.kept_lt_created (by simp [position, Stage2.kept])
    have top := (placed q old).2
    refine ⟨old, ?_⟩
    simp only [Stage2.batch, List.headD_cons, Nat.zero_mul, Nat.add_zero]
    rw [Nat.mod_eq_of_lt (by simp only [zoneSize] at top; omega)]
  -- A page is taken only if its base is the one after the last page of the batch.
  | @collectTake batch next rest position room queue wanted =>
    have some := rows.nonempty batch 0 (.inl position)
    have current := rows.batch
    rw [position] at current
    have old : next < s.created := (sound.owned.live next (Custody.mem_pipe_of_waiting (by
      simp [Custody.waiting, Engine.custody, queue]))).1
    intro i p at_
    have head : (batch ++ [next]).headD 0 = batch.headD 0 := by
      cases batch with
      | nil => exact absurd rfl some
      | cons first rest => rfl
    simp only [Stage2.batch] at at_ current ⊢
    rw [head]
    rcases Nat.lt_trichotomy i batch.length with inside | rfl | beyond
    · exact current i p (by rwa [List.getElem?_append_left inside] at at_)
    · obtain rfl : next = p := by simpa using at_
      exact ⟨old, wanted⟩
    · simp [List.getElem?_append_right beyond.le, Nat.sub_ne_zero_of_lt beyond] at at_
  | pushBack position => simp [position, Stage2.returning] at settled
  | checkReady position | checkNotReady position | collectStop position | detachDone position
  | unlinkSkip position | unlink position | tag position | writeStart position =>
    exact keep (by simp [position, Stage2.batch])
  | pwritev position fits after outcome =>
    cases after with
    | again next => exact keep (by simp [position, Stage2.batch, afterPwritev])
    | done total => exact empty rfl
  | pop | exit | poppedBusy | busyPush | wake | written | latch | freeDone | free | leave
  | decrement => exact empty rfl

theorem issued_step (rows : Rows s) (handed : Handed s) (sound : Sound cfg s)
    (move : Move cfg s label s') {offset : Nat} {pages : List PageId}
    {zones : List (Nat → Cell)} (issued : .issued offset pages zones ∈ s'.log) :
    Consecutive s' offset pages ∧ ∀ p ∈ pages, scrapPageIsFull (s'.pages p) = true := by
  rcases issued_cases move issued with old | ⟨batch, st, position, rfl, rfl⟩
  · obtain ⟨consecutive, full⟩ := rows.issued offset pages zones old
    refine ⟨consecutive.step sound move, fun p among => ?_⟩
    rw [frozen_step sound move ((handed.frozen offset pages zones old).2 p among)]
    exact full p among
  · have current := rows.batch
    rw [position] at current
    have consecutive : Consecutive s ((s.pages (batch.headD 0)).base + st.i * zoneSize)
        (batch.drop st.i) := by
      intro j p at_
      rw [List.getElem?_drop] at at_
      obtain ⟨old, base⟩ := current (st.i + j) p at_
      exact ⟨old, base.trans (by rw [Nat.add_mul, ← Nat.add_assoc]; rfl)⟩
    refine ⟨consecutive.step sound move, fun p among => ?_⟩
    have inBatch := List.mem_of_mem_drop among
    have flushing : (s.pages p).hdr.tag = .flushing :=
      sound.owned.flushing p (by simpa [Engine.custody, position, Stage2.tagged] using inBatch)
    rw [frozen_step sound move flushing]
    exact sound.ready.filled p (by
      simp [Engine.outgoing, position, Stage2.pages, Stage2.tagged, inBatch])

theorem step (rows : Rows s) (handed : Handed s) (sound : Sound cfg s) (placed : Placed s)
    (move : Move cfg s label s') : Rows s' := by
  have original := move
  have issued : ∀ offset pages zones, .issued offset pages zones ∈ s'.log →
      Consecutive s' offset pages ∧ ∀ p ∈ pages, scrapPageIsFull (s'.pages p) = true :=
    fun offset pages zones issued => rows.issued_step handed sound move issued
  have elsewhere : s'.s2 = s.s2 → Rows s' := fun same =>
    ⟨fun batch next position => rows.nonempty batch next (same ▸ position),
      rows.batch_keep sound original (by rw [same]), issued⟩
  cases move with
  | fg move => exact elsewhere (by cases move <;> rfl)
  | stage1 move => exact elsewhere (by cases move <;> rfl)
  | closer move => exact elsewhere (by cases move <;> rfl)
  | stage2 move =>
    refine ⟨?_, rows.batch_stage2 sound placed move, issued⟩
    intro batch next position
    cases move with
    | collectTake before =>
      obtain ⟨rfl, -⟩ : _ = batch ∧ _ := by simpa using position
      exact rows.nonempty _ 0 (.inl before)
    | pwritev _ _ after => cases after <;> simp [afterPwritev] at position
    | poppedGo | checkReady =>
      obtain rfl : _ = batch := by simpa using position
      simp
    | _ => simp at position

end Rows

/-- What the buffers rely on, in every reachable state. -/
structure Ordinary (cfg : Config) (s : Engine n) : Prop where
  sound : Sound cfg s
  aimed : Aimed s
  placed : Placed s
  assembly : Assembly s
  handed : Handed s
  rows : Rows s

theorem Ordinary.init (cfg : Config) (file : File) (scratch : Nat → UInt8) :
    Ordinary cfg (Engine.init n cfg file scratch) where
  sound := .init cfg file scratch
  aimed := by simp [Aimed, Engine.init]
  placed := by simp [Placed, Engine.init]
  assembly := .init cfg file scratch
  handed := ⟨by simp [Engine.init], .nil⟩
  rows := .init cfg file scratch

theorem Ordinary.step (ordinary : Ordinary cfg s) (move : Move cfg s label s') :
    Ordinary cfg s' where
  sound := ordinary.sound.move move
  aimed := ordinary.sound.aimed_step ordinary.aimed move
  placed := ordinary.placed.step ordinary.sound move
  assembly := ordinary.assembly.step ordinary.sound ordinary.aimed move
  handed := ordinary.handed.step ordinary.sound move
  rows := ordinary.rows.step ordinary.handed ordinary.sound ordinary.placed move

theorem ordinary_of_run {condition : Engine n → Label n → Prop}
    (run : Run (Engine.step cfg) condition (Engine.init n cfg file scratch) s) :
    Ordinary cfg s :=
  run.invariant (Ordinary cfg) (.init cfg file scratch) fun ordinary _ stepped =>
    ordinary.step (move_of_step stepped)

theorem covered_run (reached : Reachable cfg file scratch s) {p : PageId} (old : p < s.created)
    {x : Nat} (covered : (s.pages p).Covered x)
    (run : Run (Engine.step cfg) (fun _ _ => True) s s') : (s'.pages p).Covered x := by
  have all : Sound cfg s' ∧ p < s'.created ∧ (s'.pages p).Covered x := by
    apply run.invariant fun s' => Sound cfg s' ∧ p < s'.created ∧ (s'.pages p).Covered x
    · exact ⟨sound_of_run reached, old, covered⟩
    · rintro middle last label ⟨sound, old, covered⟩ - stepped
      have move := move_of_step stepped
      exact ⟨sound.move move, lt_of_lt_of_le old (created_mono move),
        covered_mono sound move old covered⟩
  exact all.2.2

/-- The cell of the gather buffer for file offset `offset + k` is assembled for that offset. -/
theorem Ordinary.gather (ordinary : Ordinary cfg s) {offset : Nat} {pages : List PageId}
    {zones : List (Nat → Cell)} (issued : .issued offset pages zones ∈ s.log) {k : Nat}
    (inside : k < pages.length * zoneSize) :
    ∃ p, pages[k / zoneSize]? = some p ∧
      Assembled p ((offset + k) % word) (gather zones k) := by
  obtain ⟨buffers, -⟩ := ordinary.handed.frozen offset pages zones issued
  obtain ⟨consecutive, full⟩ := ordinary.rows.issued offset pages zones issued
  have row : k / zoneSize < pages.length := Nat.div_lt_of_lt_mul (by rwa [Nat.mul_comm])
  have column : k % zoneSize < zoneSize := Nat.mod_lt _ (by decide)
  have at_ : pages[k / zoneSize]? = some (pages[k / zoneSize]) := List.getElem?_eq_getElem row
  refine ⟨pages[k / zoneSize], at_, ?_⟩
  obtain ⟨old, base⟩ := consecutive _ _ at_
  have top := (ordinary.placed _ old).2
  -- The row starts below `word`, so the column cannot wrap.
  have place : (offset + k) % word = (s.pages (pages[k / zoneSize])).base + k % zoneSize := by
    have split : offset + k = offset + k / zoneSize * zoneSize + k % zoneSize := by
      rw [Nat.add_assoc, Nat.div_add_mod']
    rw [split, ← Nat.mod_add_mod, ← base, Nat.mod_eq_of_lt]
    omega
  have covered := (scrapPageIsFull_iff (ordinary.sound.ready.wellFormed _)).mp
    (full _ (List.getElem_mem row)) _ column
  have cell : NoxDB.gather zones k = (s.pages (pages[k / zoneSize])).data (k % zoneSize) := by
    rw [NoxDB.gather, buffers, List.getElem?_map, at_]
    rfl
  rw [place, cell]
  exact ordinary.assembly.zones _ old _ covered

/-- A page in Queue-2 or in Stage-2's hands covers its zone, now and in every continuation of
the run; every byte of every buffer passed to the device was copied from a user buffer or
delivered by Stage-1 for that page and that file offset; and `stage2_collect` finds every page
it examines ready. -/
theorem assembled_writeback (reached : Reachable cfg file scratch s) :
    (∀ p ∈ s.q2 ++ s.s2.pages, ∀ s', Run (Engine.step cfg) (fun _ _ => True) s s' →
      ∀ x < zoneSize, (s'.pages p).Covered x) ∧
    (∀ offset pages zones, .issued offset pages zones ∈ s.log →
      ∀ k < pages.length * zoneSize, ∃ p, pages[k / zoneSize]? = some p ∧
        Assembled p ((offset + k) % word) (gather zones k)) ∧
    (∀ batch next, s.s2 = .check batch next → s.ready next = true) ∧
    ∀ batch next, s.s2 ≠ .pushBack batch next := by
  have ordinary := ordinary_of_run reached
  have ready := ordinary.sound.ready
  refine ⟨fun p member s' run x inside => ?_, fun offset pages zones issued k inside =>
    ordinary.gather issued inside, fun batch next position => ready.ready_of_check position,
    fun batch next position => ?_⟩
  · have outgoing : p ∈ s.outgoing := by
      simp only [Engine.outgoing, List.mem_append] at member ⊢
      exact .inl member.symm
    have old := (ordinary.sound.owned.live p (outgoing_subset_pipe s outgoing)).1
    exact covered_run reached old
      ((scrapPageIsFull_iff (ready.wellFormed p)).mp (ready.filled p outgoing) x inside) run
  · have settled := ready.settled
    simp [position, Stage2.returning] at settled

/-- The small run passes a page to the device: ten user bytes, and zeros where its read found
the end of the file. -/
theorem assembled_writeback_of_written :
    ∃ s : Engine 1, Reachable .standard emptyFile (fun _ => 0) s ∧
      ∃ offset pages zones, .issued offset pages zones ∈ s.log ∧ pages = [0] ∧
        ∀ k < pages.length * zoneSize, ∃ p, pages[k / zoneSize]? = some p ∧
          Assembled p ((offset + k) % word) (gather zones k) := by
  obtain ⟨s, reached, issued⟩ :=
    exists_reachable .standard emptyFile (fun _ => 0) (tinyWrite ++ tinyFill ++ tinyWriteback)
      (fun s => (s.log.any fun | .issued _ pages _ => pages = [0] | _ => false) = true)
      (by decide +kernel)
  obtain ⟨-, buffers, -⟩ := assembled_writeback reached
  obtain ⟨event, member, isIssued⟩ := List.any_eq_true.mp issued
  cases event with
  | issued offset pages zones =>
    exact ⟨s, reached, offset, pages, zones, member, by simpa using isIssued,
      buffers offset pages zones member⟩
  | _ => simp at isIssued

end NoxDB

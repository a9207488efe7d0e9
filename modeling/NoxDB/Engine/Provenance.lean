import NoxDB.Engine.LastWriter

/-! # No byte out of thin air

Whatever the writers do to each other and whatever the device answers, every byte of the
file is at every moment the byte it was at first or a byte that some call wanted at that
very offset.  The one exception is a `pread` that ends before the end of the file: what it
does not deliver is taken for zero.  Nothing the allocator left in a page or in the scratch
zone, and nothing of another offset, reaches the file.
-/

namespace NoxDB

open Function (update)
open Library.Segments
open Library.Runs

variable {n : Nat}

/-- What the engine was given: the calls so far, and whether a `pread` was cut short. -/
structure Given where
  calls : List Call
  short : Bool

/-- The `pread` delivers less than the file has. -/
def Engine.cutsShort (s : Engine n) : Pread → Bool
  | .fail => false
  | .count delivered =>
    match s.s1 with
    | .reading p (run :: _) =>
      delivered < s.file.available ((s.pages p).base + run.offset) run.size
    | _ => false

/-- The record of what the engine was given. -/
def give (s : Engine n) (label : Label n) (given : Given) : Given :=
  match label with
  | .call _ call => { given with calls := call :: given.calls }
  | .pread result => { given with short := given.short || s.cutsShort result }
  | _ => given

/-- The byte may stand at file offset `y`. -/
def Given.Supplies (given : Given) (file : File) (y : Nat) (v : UInt8) : Prop :=
  v = file.byte y ∨ (∃ call ∈ given.calls, call.Covers y ∧ v = call.value y) ∨
    given.short = true ∧ v = 0

variable {cfg : Config} {file : File} {scratch : Nat → UInt8} {s s' : Engine n} {label : Label n}
  {given : Given} {y : Nat} {v : UInt8}

theorem calls_of_give {call : Call} (member : call ∈ given.calls) :
    call ∈ (give s label given).calls := by
  cases label with
  | call => exact List.mem_cons_of_mem _ member
  | _ => exact member

theorem Given.Supplies.give (supplies : given.Supplies file y v) :
    (NoxDB.give s label given).Supplies file y v := by
  rcases supplies with first | ⟨call, member, wanted⟩ | ⟨short, zero⟩
  · exact .inl first
  · exact .inr (.inl ⟨call, calls_of_give member, wanted⟩)
  · refine .inr (.inr ⟨?_, zero⟩)
    cases label <;> simp [NoxDB.give, short]

/-- Where Stage-1's list of runs comes from, and with it the scratch zone. -/
theorem unread_cases (move : Move cfg s label s') {p : PageId} {runs : List Segment}
    (unread : s'.s1.unread = some (p, runs)) :
    (s.s1.unread = some (p, runs) ∧ s'.scratch = s.scratch) ∨
    (s.s1 = .popped p ∧
      runs = holeRuns (scrapPageHoleRanges (s.pages p) (cfg.maxEntries + 1)) none ∧
      s'.pages = s.pages) ∨
    ∃ run delivered, s.s1 = .reading p (run :: runs) ∧ label = .pread (.count delivered) ∧
      s'.scratch = (readRun (s.deviceCell p) (s.zeroCell p) run (.count delivered) s.scratch).2 ∧
      s'.pages = s.pages := by
  have elsewhere : s'.s1 = s.s1 → s'.scratch = s.scratch →
      s.s1.unread = some (p, runs) ∧ s'.scratch = s.scratch := fun same scratch =>
    ⟨same ▸ unread, scratch⟩
  cases move with
  | fg move => exact .inl (by cases move <;> exact elsewhere rfl rfl)
  | stage2 move => exact .inl (by cases move <;> exact elsewhere rfl rfl)
  | closer move => exact .inl (by cases move <;> exact elsewhere rfl rfl)
  | stage1 move =>
    cases move with
    | guardPass position | readStart position | readEnd position =>
      exact .inl ⟨by rw [position]; exact unread, rfl⟩
    | inspectHoles position =>
      cases unread
      exact .inr (.inl ⟨position, rfl, rfl⟩)
    | preadOk position =>
      cases unread
      exact .inr (.inr ⟨_, _, position, rfl, rfl, rfl⟩)
    | pop | exit | inspectFull | inspectBusy | forwardEnter | forwardPush | busyPush | wake
    | readFailed | fill | drop | dropDec | fillEnter | fillPush | preadFail => cases unread

/-- Every byte in the file, in the pages and in the part of the scratch zone that Stage-1 has
read for its page was supplied. -/
structure Genuine (file : File) (s : Engine n) (given : Given) : Prop where
  active : ∀ t, ∀ call ∈ (s.fg t).call, call ∈ given.calls
  disk : ∀ y, given.Supplies file y (s.file.byte y)
  zones : ∀ p y, s.Carries p y → given.Supplies file y (s.cellAt p y).val
  scratch : ∀ p runs, s.s1.unread = some (p, runs) → ∀ x < zoneSize, ¬ (s.pages p).Covered x →
    Covers runs x ∨ given.Supplies file ((s.pages p).base + x) (s.scratch x).val

namespace Genuine

theorem init (cfg : Config) (file : File) (scratch : Nat → UInt8) :
    Genuine file (Engine.init n cfg file scratch) ⟨[], false⟩ where
  active := by simp [Engine.init, Fg.call]
  disk := fun _ => .inl rfl
  zones := fun p y carries => by simpa [Engine.init] using carries.current
  scratch := by simp [Engine.init, Stage1.unread]

theorem active_step (genuine : Genuine file s given) (move : Move cfg s label s') :
    ∀ t, ∀ call ∈ (s'.fg t).call, call ∈ (give s label given).calls := by
  intro t call busy
  rcases call_cases move busy with before | rfl
  · exact calls_of_give (genuine.active t call before)
  · exact List.mem_cons_self

/-- A merged byte is the byte its call wants there. -/
theorem supplies_chunk (genuine : Genuine file s given) {t : Fin n} {call : Call} {done : Nat}
    {pc : ChunkPc} (position : s.fg t = .scrap call done pc) (more : done < call.size)
    (low : call.cur done ≤ y) (high : y < call.cur done + call.chunk done) :
    given.Supplies file y (call.cells done (y - call.cur done)).val := by
  have member := genuine.active t call (by simp [position, Fg.call])
  exact .inr (.inl ⟨call, member, Call.covers_of_chunk more low high,
    Call.value_of_chunk more low high⟩)

/-- A page in the batch of a writeback has a byte for every offset of its window. -/
theorem carries_of_writing (ordinary : Ordinary cfg s) {batch : List PageId} {st : PwritevState}
    {q : PageId} (position : s.s2 = .writing batch st) (row : q ∈ batch.drop st.i)
    (window : s.InWindow q y) : s.Carries q y := by
  have inBatch := List.mem_of_mem_drop row
  have consecutive := ordinary.rows.batch
  simp only [position, Stage2.batch] at consecutive
  have full := ordinary.sound.ready.filled q (by
    simp [Engine.outgoing, position, Stage2.pages, Stage2.tagged, inBatch])
  refine ⟨consecutive.lt_created inBatch, window, ?_⟩
  obtain ⟨low, high⟩ := window
  exact (scrapPageIsFull_iff (ordinary.sound.ready.wellFormed q)).mp full _ (by omega)

theorem fits_of_pwrite {t : Fin n} {call : Call} {result : IoResult}
    (move : Move cfg s (.pwrite t result) s') (position : s.fg t = .direct call) :
    result.Fits call.offset call.size := by
  cases move with
  | fg move =>
    cases move with
    | pwrite there fits =>
      rw [position] at there
      cases there
      exact fits
  | stage1 move | stage2 move | closer move => cases move

/-- The file and the pages, one offset at a time. -/
theorem byte (genuine : Genuine file s given) (ordinary : Ordinary cfg s)
    (move : Move cfg s label s') (y : Nat) :
    given.Supplies file y (s'.file.byte y) ∧
      ∀ p, s'.Carries p y → given.Supplies file y (s'.cellAt p y).val := by
  have same : ∀ {p}, SameByte s s' p y → s'.Carries p y →
      given.Supplies file y (s'.cellAt p y).val := by
    intro p same carries
    obtain ⟨-, cell⟩ := same.after (same.before carries)
    rw [cell]
    exact genuine.zones p y (same.before carries)
  cases byte_step ordinary move file y with
  | quiet _ byte pages => exact ⟨byte ▸ genuine.disk y, fun p => same (pages p)⟩
  | @merge t call done p created position inside v value _ byte _ cell pages =>
    refine ⟨byte ▸ genuine.disk y, fun q carries => ?_⟩
    by_cases merged : q = p
    · subst merged
      rw [cell, value]
      exact genuine.supplies_chunk position
        (ordinary.sound.ready.progress t call done _ position) inside.1 inside.2
    · exact same (pages q merged) carries
  | @fill p position window hole _ byte _ cell pages =>
    refine ⟨byte ▸ genuine.disk y, fun q carries => ?_⟩
    by_cases filled : q = p
    · subst filled
      obtain ⟨low, high⟩ := window
      have read := (genuine.scratch q [] (by rw [position]; rfl) _ (by omega) hole).resolve_left
        covers_nil
      rw [cell]
      rwa [Nat.add_sub_cancel' low] at read
    · exact same (pages q filled) carries
  | @direct t call result step position inside _ byte pages =>
    refine ⟨?_, fun p => same (pages p)⟩
    subst step
    have covers := Call.covers_of_landed (fits_of_pwrite move position) inside.1 inside.2
    have member := genuine.active t call (by simp [position, Fg.call])
    refine .inr (.inl ⟨call, member, covers, ?_⟩)
    rw [byte, Call.value, Call.index_of_le inside.1 covers.1]
  | writeback position row window _ byte pages =>
    refine ⟨?_, fun p => same (pages p)⟩
    rw [byte]
    exact genuine.zones _ y (carries_of_writing ordinary position row window)

/-- What a `pread` puts into the scratch zone. -/
theorem supplies_read (genuine : Genuine file s given) {p : PageId} {run : Segment}
    {runs : List Segment} {delivered : Nat} (position : s.s1 = .reading p (run :: runs)) {x : Nat}
    (before : run.Contains x ∨ given.Supplies file ((s.pages p).base + x) (s.scratch x).val) :
    (give s (.pread (.count delivered)) given).Supplies file ((s.pages p).base + x)
      ((readRun (s.deviceCell p) (s.zeroCell p) run (.count delivered) s.scratch).2 x).val := by
  simp only [readRun]
  split
  · exact (genuine.disk _).give
  · next undelivered =>
    split
    · next inside =>
      -- Past the end of the file a zero is what the file has.
      by_cases short : delivered < s.file.available ((s.pages p).base + run.offset) run.size
      · refine .inr (.inr ⟨?_, rfl⟩)
        simp [give, Engine.cutsShort, position, short]
      · have late : run.offset + delivered ≤ x := by
          by_contra early
          exact undelivered ⟨inside, by omega⟩
        obtain ⟨low, high⟩ := inside
        simp only [Segment.stop] at high
        have place : (s.pages p).base + x = (s.pages p).base + run.offset + (x - run.offset) := by
          omega
        have zero : s.file.byte ((s.pages p).base + x) = 0 := by
          rw [place]
          exact s.file.byte_of_available_le (show x - run.offset < run.size by omega) (by omega)
        have supplies := genuine.disk ((s.pages p).base + x)
        rw [zero] at supplies
        exact supplies.give
    · next outside => exact (before.resolve_left outside).give

theorem scratch_step (genuine : Genuine file s given) (sound : Sound cfg s)
    (move : Move cfg s label s') :
    ∀ p runs, s'.s1.unread = some (p, runs) → ∀ x < zoneSize, ¬ (s'.pages p).Covered x →
      Covers runs x ∨
        (give s label given).Supplies file ((s'.pages p).base + x) (s'.scratch x).val := by
  intro p runs unread x inside hole
  rcases unread_cases move unread with ⟨before, same⟩ | ⟨position, rfl, pages⟩ |
    ⟨run, delivered, position, rfl, scratch, pages⟩
  · have old := unread_lt_created sound before
    have earlier := genuine.scratch p runs before x inside fun covered =>
      hole (covered_mono sound move old covered)
    rw [same, base_stable (sound.refines move) p old]
    exact earlier.imp_right .give
  · -- The runs to read cover every hole.
    have wellFormed := sound.ready.wellFormed p
    rw [pages] at hole
    left
    apply covers_holeRuns_of_covers (scrapPageHoleRanges_separated wellFormed _)
      (scrapPageHoleRanges_bounded wellFormed)
    exact (covers_scrapPageHoleRanges x wellFormed).mpr ⟨inside, hole⟩
  · rw [pages] at hole ⊢
    have before := genuine.scratch p (run :: runs) (by rw [position]; rfl) x inside hole
    rw [covers_cons] at before
    by_cases later : Covers runs x
    · exact .inl later
    · right
      rw [scratch]
      exact genuine.supplies_read position (before.imp_left fun first => first.resolve_right later)

theorem step (genuine : Genuine file s given) (ordinary : Ordinary cfg s)
    (move : Move cfg s label s') : Genuine file s' (give s label given) where
  active := genuine.active_step move
  disk := fun y => (genuine.byte ordinary move y).1.give
  zones := fun p y carries => ((genuine.byte ordinary move y).2 p carries).give
  scratch := genuine.scratch_step ordinary.sound move

end Genuine

/-- At every moment of every run every byte of the file is the byte the file had there at first,
or the byte that a call made so far wants there, or a zero in place of what a `pread` cut short
before the end of the file did not deliver. -/
theorem no_thin_air
    (run : Run (recording (Engine.step cfg) give) (fun _ _ => True)
      (Engine.init n cfg file scratch, ⟨[], false⟩) (s, given)) (y : Nat) :
    s.file.byte y = file.byte y ∨
      (∃ call ∈ given.calls, call.Covers y ∧ s.file.byte y = call.value y) ∨
      given.short = true ∧ s.file.byte y = 0 := by
  have both : Ordinary cfg s ∧ Genuine file s given :=
    run.invariant (fun both => Ordinary cfg both.1 ∧ Genuine file both.1 both.2)
      ⟨.init cfg file scratch, .init cfg file scratch⟩ fun known _ stepped => by
        obtain ⟨taken, record⟩ := recording_eq_some stepped
        have move := move_of_step taken
        rw [record]
        exact ⟨known.1.step move, known.2.step known.1 move⟩
  exact both.2.disk y

/-- The small run up to its writeback: byte 7 of the file is the third byte of the call. -/
theorem no_thin_air_of_written :
    ∃ (s : Engine 1) (given : Given),
      Run (recording (Engine.step .standard) give) (fun _ _ => True)
        (Engine.init 1 .standard emptyFile (fun _ => 0), ⟨[], false⟩) (s, given) ∧
      s.file.byte 7 = 3 ∧ given.short = false ∧
      ∃ call ∈ given.calls, call.Covers 7 ∧ s.file.byte 7 = call.value 7 := by
  have reached : ∃ both, Run (recording (Engine.step .standard) give) (fun _ _ => True)
      (Engine.init 1 .standard emptyFile (fun _ => 0), ⟨[], false⟩) both ∧
      both.1.file.byte 7 = 3 ∧ both.2.short = false :=
    Run.exists_of_follow _ (fun _ _ => true) (tinyWrite ++ tinyFill ++ tinyWriteback)
      (fun _ _ _ => trivial)
      (fun both : Engine 1 × Given => both.1.file.byte 7 = 3 ∧ both.2.short = false)
      (by decide +kernel)
  obtain ⟨⟨s, given⟩, run, byte, whole⟩ := reached
  dsimp only at byte whole
  refine ⟨s, given, run, byte, whole, ?_⟩
  rcases no_thin_air run 7 with first | called | ⟨short, -⟩
  · have zero : emptyFile.byte 7 = 0 := rfl
    rw [byte, zero] at first
    exact absurd first (by decide)
  · exact called
  · simp [whole] at short

end NoxDB

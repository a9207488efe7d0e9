import NoxDB.Engine.Eviction

/-! # The life of a page

The tag of a page goes one way, from `OPEN` over `SEALED` and `FULL` to `FLUSHING`, along every
run and whoever moves it.  And it says what it should: a page carries one of the last two tags
exactly while its header covers the whole zone.  So the two tests that `stage2_collect` joins with
an "or" are one test.
-/

namespace NoxDB

open Function (update)
open Library.Runs

variable {n : Nat}

/-- How far a page has come. -/
def Tag.rank : Tag → Nat
  | .opened => 0
  | .sealed => 1
  | .full => 2
  | .flushing => 3

/-- The tag and the header of the page say the same. -/
def ScrapPage.TagExact (page : ScrapPage Cell) : Prop :=
  scrapPageIsFull page = true ↔ 2 ≤ page.hdr.tag.rank

/-- One change of a page on its way. -/
structure ScrapPage.Ages (page page' : ScrapPage Cell) : Prop where
  tag : page.hdr.tag.rank ≤ page'.hdr.tag.rank
  exact : page'.TagExact

variable {cfg : Config} {file : File} {scratch : Nat → UInt8} {s s' : Engine n} {label : Label n}
  {p : PageId} {page : ScrapPage Cell}

theorem Tag.rank_le_two {tag : Tag} (before : tag ≠ .flushing) : tag.rank ≤ 2 := by
  cases tag <;> simp_all [rank]

theorem Tag.rank_le_three (tag : Tag) : tag.rank ≤ 3 := by
  cases tag <;> decide

namespace ScrapPage.Ages

/-- The page keeps its tag and what it covers. -/
theorem refl (exact_ : page.TagExact) : page.Ages page := ⟨le_rfl, exact_⟩

theorem full {page' : ScrapPage Cell} (before : page.hdr.tag ≠ .flushing)
    (after : page'.hdr.tag = .full) (covered : scrapPageIsFull page' = true) : page.Ages page' where
  tag := by
    rw [after]
    exact Tag.rank_le_two before
  exact := by simp [TagExact, covered, after, Tag.rank]

/-- The critical section of `scrap_write_chunk`. -/
theorem decide {created : Bool} {cells : Nat → Cell} {intra len : Nat} {decision : Decision}
    (exact_ : page.TagExact) (before : page.hdr.tag ≠ .flushing)
    (wellFormed : page.WellFormed cfg.maxEntries) (positive : 0 < len)
    (room : intra + len ≤ zoneSize)
    (way : Decided cfg page created cells intra len decision) : page.Ages decision.page := by
  -- A page that covers its zone accepts every merge, so it is never sealed.
  have holes : scrapPageMerge cfg.maxEntries page cells intra len = (.overflow, page) →
      scrapPageIsFull page = false := by
    intro rejected
    by_contra covered
    have accepts : (scrapPageMerge cfg.maxEntries page cells intra len).1 = .ok :=
      scrapPageMerge_of_full cfg.maxEntries_pos wellFormed (by simpa using covered) positive room
    simp [rejected] at accepts
  have stays := way.isFull wellFormed positive room
  cases way with
  | seen => exact .refl exact_
  | overflow tag rejected | overflowPush tag rejected =>
    have unfilled := holes rejected
    have young : ¬ 2 ≤ page.hdr.tag.rank := fun old => by simp [exact_.mpr old] at unfilled
    refine ⟨?_, ?_⟩
    · change page.hdr.tag.rank ≤ 1
      omega
    · simpa [TagExact, ScrapPage.retag, Tag.rank, scrapPageIsFull] using unfilled
  | full tag accepted isFull => exact .full before rfl isFull
  | fullPush tag accepted isFull => exact .full before rfl isFull
  | @partialPush merged tag accepted unfilled | @stay merged tag accepted unfilled =>
    have same : merged.hdr.tag = page.hdr.tag := by rw [(scrapPageMerge_ok accepted).2]
    refine ⟨le_of_eq (congrArg Tag.rank same.symm), ?_⟩
    have young : ¬ 2 ≤ page.hdr.tag.rank := fun old => by
      have covered : scrapPageIsFull merged = true := stays (exact_.mpr old)
      simp [unfilled] at covered
    change scrapPageIsFull merged = true ↔ 2 ≤ merged.hdr.tag.rank
    rw [same, unfilled]
    simpa using young

/-- `enqueue_one` of `nox_close`. -/
theorem sweep (exact_ : page.TagExact) (before : page.hdr.tag ≠ .flushing) :
    page.Ages (Engine.enqueueOne page).1 := by
  simp only [Engine.enqueueOne, enqueueFull, enqueuePartial]
  split
  · next covered => split <;> exact .full before rfl covered
  · split <;> exact ⟨le_rfl, exact_⟩

end ScrapPage.Ages

/-- Every page there is ages. -/
theorem ages_step (sound : Sound cfg s) (exact_ : ∀ q < s.created, (s.pages q).TagExact)
    (move : Move cfg s label s') (old : p < s.created) : (s.pages p).Ages (s'.pages p) := by
  have refl : (s.pages p).Ages (s.pages p) := .refl (exact_ p old)
  have changed : ∀ {q : PageId} {page : ScrapPage Cell}, (s.pages q).Ages page →
      (s.pages p).Ages (update s.pages q page p) := by
    intro q page ages
    by_cases same : p = q
    · subst same
      simpa using ages
    · simpa [same] using refl
  cases move with
  | fg move =>
    cases move with
    | alloc =>
      have differs : p ≠ s.created := Nat.ne_of_lt old
      simpa [differs] using refl
    | @decide t call done q created position decision decided =>
      have current := target_lt_created sound.owned position rfl
      have more := sound.ready.progress t call done _ position
      exact changed (.decide (exact_ q current) (ne_flushing_of_held sound position)
        (sound.ready.wellFormed q) (Call.chunk_pos more) (call.intra_add_chunk_le done)
        (.of_eq decided))
    | _ => exact refl
  | stage1 move =>
    cases move with
    | @fill q position free page filled =>
      have before := ne_flushing_of_waiting (p := q) sound (by
        simp [Custody.waiting, Engine.custody, position, Stage1.pages])
      subst filled
      have covered : scrapPageIsFull (scrapPageApplyHoles cfg.maxEntries (s.pages q) s.scratch) =
          true := scrapPageApplyHoles_full s.scratch
      exact changed (.full before rfl covered)
    | @drop q position =>
      have current := sound.hand_lt_created (p := q) (by simp [position, Stage1.pages])
      exact changed ⟨le_rfl, exact_ q current⟩
    | _ => exact refl
  | stage2 move =>
    cases move with
    | @unlink done q todo position =>
      have current := sound.kept_lt_created (p := q) (by simp [position, Stage2.kept])
      exact changed ⟨le_rfl, exact_ q current⟩
    | @tag done q todo position =>
      have covered := sound.ready.filled q (by
        simp [Engine.outgoing, position, Stage2.pages, Stage2.unlinked])
      refine changed ⟨?_, ?_⟩
      · exact Tag.rank_le_three _
      · simpa [ScrapPage.TagExact, Tag.rank, scrapPageIsFull] using covered
    | _ => exact refl
  | closer move =>
    cases move with
    | @sweepLock err bucket q position alive free page enqueue chosen =>
      have linked := (sound.walk.current err bucket q position).1
      have current := (sound.owned.indexed bucket q linked).1.1
      rw [show page = (Engine.enqueueOne (s.pages q)).1 from congrArg Prod.fst chosen]
      exact changed (.sweep (exact_ q current) (ne_flushing_of_linked sound linked))
    | _ => exact refl

theorem tagExact_step (sound : Sound cfg s) (exact_ : ∀ q < s.created, (s.pages q).TagExact)
    (move : Move cfg s label s') : ∀ q < s'.created, (s'.pages q).TagExact := by
  intro q current
  rcases old_or_new move current with old | ⟨t, call, done, zone, position, page⟩
  · exact (ages_step sound exact_ move old).exact
  · -- A new page is open and covers nothing.
    simp [ScrapPage.TagExact, page, scrapPageAlloc, scrapPageIsFull, Tag.rank]

theorem tagExact_of_run (reached : Reachable cfg file scratch s) :
    ∀ q < s.created, (s.pages q).TagExact := by
  apply reached.invariant_along (Sound cfg) fun s => ∀ q < s.created, (s.pages q).TagExact
  · exact sound_of_run
  · simp [Engine.init]
  · intro middle last label sound exact_ _ stepped
    exact tagExact_step sound exact_ (move_of_step stepped)

/-- In every reachable state a page carries the tag `FULL` or `FLUSHING` exactly if its header
covers the whole zone, and whatever happens from there on, the tag of the page only moves
forward, from `OPEN` over `SEALED` and `FULL` to `FLUSHING`. -/
theorem page_ages (reached : Reachable cfg file scratch s)
    (run : Run (Engine.step cfg) (fun _ _ => True) s s') :
    ∀ q < s.created,
      (scrapPageIsFull (s.pages q) = true ↔
        (s.pages q).hdr.tag = .full ∨ (s.pages q).hdr.tag = .flushing) ∧
      (s.pages q).hdr.tag.rank ≤ (s'.pages q).hdr.tag.rank := by
  intro q current
  constructor
  · have exact_ : scrapPageIsFull (s.pages q) = true ↔ 2 ≤ (s.pages q).hdr.tag.rank :=
      tagExact_of_run reached q current
    rw [exact_]
    cases (s.pages q).hdr.tag <;> simp [Tag.rank]
  · have later : Reachable cfg file scratch s' ∧ s.created ≤ s'.created ∧
        (s.pages q).hdr.tag.rank ≤ (s'.pages q).hdr.tag.rank := by
      apply run.invariant fun s' => Reachable cfg file scratch s' ∧ s.created ≤ s'.created ∧
        (s.pages q).hdr.tag.rank ≤ (s'.pages q).hdr.tag.rank
      · exact ⟨reached, le_rfl, le_rfl⟩
      · rintro middle last label ⟨reached, grown, forward⟩ - stepped
        have move := move_of_step stepped
        have ages := ages_step (sound_of_run reached) (tagExact_of_run reached) move
          (lt_of_lt_of_le current grown)
        exact ⟨reached.tail trivial stepped, grown.trans (created_mono move),
          forward.trans ages.tag⟩
    exact later.2.2

/-- The page of the small run is open after the write and flushing after the writeback. -/
theorem page_ages_of_tiny :
    ∃ s s' : Engine 1, Reachable .standard emptyFile (fun _ => 0) s ∧
      Run (Engine.step .standard) (fun _ _ => True) s s' ∧
      (s.pages 0).hdr.tag = .opened ∧ scrapPageIsFull (s.pages 0) = false ∧
      (s'.pages 0).hdr.tag = .flushing ∧ (s.pages 0).hdr.tag.rank ≤ (s'.pages 0).hdr.tag.rank := by
  obtain ⟨s, reached, opened, created, goesOn⟩ :=
    exists_reachable .standard emptyFile (fun _ => 0) tinyWrite
      (fun s : Engine 1 => (s.pages 0).hdr.tag = .opened ∧ 0 < s.created ∧
        (Run.follow (fun _ _ => true) (Engine.step .standard) s (tinyFill ++ tinyWriteback)).any
          (fun s' => (s'.pages 0).hdr.tag = .flushing) = true) (by decide +kernel)
  have later : ∃ s', Run (Engine.step .standard) (fun _ _ => True) s s' ∧
      (s'.pages 0).hdr.tag = .flushing :=
    Run.exists_of_follow s (fun _ _ => true) (tinyFill ++ tinyWriteback) (fun _ _ _ => trivial)
      (fun s' : Engine 1 => (s'.pages 0).hdr.tag = .flushing) goesOn
  obtain ⟨s', run, flushing⟩ := later
  obtain ⟨exact_, forward⟩ := page_ages reached run 0 created
  refine ⟨s, s', reached, run, opened, ?_, flushing, forward⟩
  exact Bool.eq_false_iff.mpr fun covered => by simp [opened] at exact_; simp [exact_] at covered

end NoxDB

import NoxDB.ScrapPage.MergeOrder
import NoxDB.ScrapPage.ReadOnce

/-! # The split hole fill

Stage-1 takes the hole list, reads the holes without the page lock, and applies what it read to
the page as it is by then.  Whatever was merged in between, the result is that of filling the
holes in one step after the merges: coverage only grows, so a byte that is still a hole was one
in the stale list, and its block was read.
-/

namespace NoxDB

open Library.Segments

/-- No `pread` for the page's holes fails, and each delivers what there is up to the end of file. -/
structure ReadsServed (cfg : Config) (page : ScrapPage UInt8) (file : File)
    (results : Nat → Pread) : Prop where
  succeeds : ∀ i < (holeRequests cfg page).length, results i ≠ .fail
  whole : ShortOnlyAtEnd cfg page file results

theorem ReadsServed.read {cfg : Config} {page : ScrapPage UInt8} {file : File}
    {results : Nat → Pread} (served : ReadsServed cfg page file results)
    (wellFormed : page.WellFormed cfg.maxEntries) (scratch : Nat → UInt8) :
    ∃ asked filled, readPageHoles cfg page file results scratch = (some asked, filled) ∧
      ∀ x, page.Hole x → filled x = file.byte (page.base + x) := by
  obtain ⟨asked, filled, read⟩ := readRuns_succeeds (fun x => file.byte (page.base + x))
    (fun _ => 0) 0 scratch served.succeeds
  exact ⟨asked, filled, read, fun x hole => filled_hole wellFormed read served.whole hole⟩

variable {cfg : Config} {page : Layout.Page cfg.maxEntries UInt8} {file : File}

/-- Filling with a scratch zone that is right at the remaining holes. -/
theorem applyHoles_of_right (valid : page.Valid) {scratch : Nat → UInt8}
    (right : ∀ x, page.abs.Hole x → scratch x = file.byte (page.base + x))
    (stack : Vector Layout.Entry (cfg.maxEntries + 1)) :
    ∃ filled, Layout.scrapPageApplyHoles stack page scratch = some filled ∧ filled.Valid ∧
      SameIdentity page filled ∧ (∀ x, Covers filled.entries x ↔ x < zoneSize) ∧
      ∀ x < zoneSize, filled.data x =
        if page.abs.Covered x then page.data x else file.byte (page.base + x) := by
  obtain ⟨filled, computed, onList, filledValid⟩ := Layout.scrapPageApplyHoles_spec
    cfg.maxEntries_pos cfg.maxEntries_le valid scratch stack
  refine ⟨filled, computed, filledValid, ?_, fun x => ?_, fun x inside => ?_⟩
  · exact sameIdentity_of_abs (by rw [onList]; rfl) (by rw [onList]; rfl) (by rw [onList]; rfl)
  · have covered : (scrapPageApplyHoles cfg.maxEntries page.abs scratch).Covered x ↔ x < zoneSize :=
      scrapPageApplyHoles_covered scratch x
    rw [← onList] at covered
    exact covered
  · have data : filled.data x = (scrapPageApplyHoles cfg.maxEntries page.abs scratch).data x := by
      rw [← onList]
      rfl
    rw [data, scrapPageApplyHoles_data scratch valid.wellFormed inside]
    by_cases covered : page.abs.Covered x
    · rw [if_pos covered, if_pos covered]
      rfl
    · rw [if_neg covered, if_neg covered]
      exact right x ⟨inside, covered⟩

/-- The atomic fill of a page whose reads are served. -/
theorem fillHoles_of_served (valid : page.Valid) {results : Nat → Pread}
    (served : ReadsServed cfg page.abs file results) (zone : Nat → UInt8)
    (stack applyStack : Vector Layout.Entry (cfg.maxEntries + 1)) :
    ∃ filled, Layout.scrapPageFillHoles stack applyStack page
        (fun x => file.byte (page.base + x)) (fun _ => 0) results (some zone) =
          some (true, filled) ∧ filled.Valid ∧
      SameIdentity page filled ∧ (∀ x, Covers filled.entries x ↔ x < zoneSize) ∧
      ∀ x < zoneSize, filled.data x =
        if page.abs.Covered x then page.data x else file.byte (page.base + x) := by
  obtain ⟨holes, nh, walked, holds⟩ :=
    Layout.scrapPageHoleRanges_spec cfg.maxEntries_le valid stack
  by_cases none : nh = 0
  · -- A page without holes is left as it is.
    have empty : scrapPageHoleRanges page.abs (cfg.maxEntries + 1) = [] := by
      rw [← holds.behind, none]
      simp [Layout.segments]
    have full : ∀ x < zoneSize, page.abs.Covered x := by
      intro x inside
      by_contra uncovered
      have hole := (covers_scrapPageHoleRanges x valid.wellFormed).mpr ⟨inside, uncovered⟩
      rw [empty] at hole
      exact covers_nil hole
    refine ⟨page, by simp [Layout.scrapPageFillHoles, walked, none], valid, ⟨rfl, rfl, rfl⟩,
      fun x => ⟨fun covered => ScrapPage.Covered.lt valid.wellFormed covered, full x⟩,
      fun x inside => by rw [if_pos (full x inside)]⟩
  · obtain ⟨asked, scratch, read, right⟩ := served.read valid.wellFormed zone
    obtain ⟨filled, applied, facts⟩ := applyHoles_of_right valid right applyStack
    refine ⟨filled, ?_, facts⟩
    have onArray : scrapPageReadHoles (fun x => file.byte (page.base + x)) (fun _ => 0)
        (Layout.segments holes nh.toNat) results zone = (some asked, scratch) := by
      rw [holds.behind]
      exact read
    simp [Layout.scrapPageFillHoles, walked, none, onArray, applied]

/-- Take the hole list, read, merge, apply; or merge and fill in one step: the same header, the
same 256KB, user bytes where a merge before or during covered them and disk bytes elsewhere. -/
theorem split_fill_eq_atomic (cfg : Config) (page : Layout.Page cfg.maxEntries UInt8)
    (valid : page.Valid) (file : File) (calls : List (MergeCall cfg.maxEntries UInt8))
    (admissible : ∀ call ∈ calls, call.Admissible) (early : Nat → Pread)
    (earlyServed : ReadsServed cfg page.abs file early) (scratch : Nat → UInt8)
    (snapshotStack applyStack : Vector Layout.Entry (cfg.maxEntries + 1)) :
    ∃ holes nh asked read history merged split,
      Layout.scrapPageHoleRanges page snapshotStack (Layout.maxWord cfg.maxEntries + 1) =
        some (holes, nh) ∧
      scrapPageReadHoles (fun x => file.byte (page.base + x)) (fun _ => 0)
        (Layout.segments holes nh.toNat) early scratch = (some asked, read) ∧
      runOps (calls.map .merge) [] page = some (history, merged) ∧
      Layout.scrapPageApplyHoles applyStack merged read = some split ∧
      split.entries = [⟨0, zoneSize⟩] ∧ split.hdr.counter = Layout.zoneWord ∧
      (∀ x < zoneSize, split.data x = match history.lastMerged x with
        | some byte => byte
        | none => if page.abs.Covered x then page.data x else file.byte (page.base + x)) ∧
      ∀ late, ReadsServed cfg merged.abs file late → ∀ zone fillStack fillApplyStack,
        ∃ atomic, Layout.scrapPageFillHoles fillStack fillApplyStack merged
            (fun x => file.byte (page.base + x)) (fun _ => 0) late (some zone) =
              some (true, atomic) ∧
          SameEntries split atomic ∧ split.hdr.tag = atomic.hdr.tag ∧
          split.hdr.ssdId = atomic.hdr.ssdId ∧ ∀ x < zoneSize, split.data x = atomic.data x := by
  obtain ⟨holes, nh, walked, holds⟩ :=
    Layout.scrapPageHoleRanges_spec cfg.maxEntries_le valid snapshotStack
  obtain ⟨asked, read, readOk, right⟩ := earlyServed.read valid.wellFormed scratch
  obtain ⟨history, merged, computed, tracks⟩ := tracks_of_run (.refl valid) cfg.maxEntries_pos
    cfg.maxEntries_le (show ∀ op ∈ calls.map PageOp.merge, op.Admissible by
      simpa [PageOp.Admissible] using admissible)
  have base : merged.base = page.base := tracks.identity.2.2
  -- Coverage only grew, so what is still a hole was one in the snapshot.
  have stillRight : ∀ x, merged.abs.Hole x → read x = file.byte (merged.base + x) := by
    intro x hole
    rw [base]
    exact right x ⟨hole.1, fun covered => hole.2 ((tracks.coverage x).mpr (.inl covered))⟩
  obtain ⟨split, applied, splitValid, splitIdentity, splitCovers, splitData⟩ :=
    applyHoles_of_right tracks.valid stillRight applyStack
  have single : split.entries = [⟨0, zoneSize⟩] :=
    (splitValid.wellFormed.separated.covers_all_iff (by decide) splitValid.wellFormed.bounded).mp
      fun x inside => (splitCovers x).mpr inside
  have counter : split.hdr.counter = Layout.zoneWord := by
    have counted : split.hdr.counter.toNat = total split.entries := splitValid.wellFormed.counted
    rw [single] at counted
    exact UInt32.toNat_inj.mp counted
  refine ⟨holes, nh, asked, read, history, merged, split, walked, ?_, computed, applied, single,
    counter, fun x inside => ?_, fun late lateServed zone fillStack fillApplyStack => ?_⟩
  · rw [holds.behind]
    exact readOk
  · rw [splitData x inside, base]
    cases last : history.lastMerged x with
    | some byte =>
      obtain ⟨call, member, covers, -⟩ := History.merged_of_lastMerged last
      rw [if_pos ((tracks.coverage x).mpr (.inr (.inl ⟨call, member, covers⟩)))]
      exact tracks.last x byte last
    | none =>
      have unmerged : ¬ history.Merged x := by
        intro merged
        obtain ⟨byte, found⟩ := History.lastMerged_of_merged merged
        rw [last] at found
        contradiction
      have same : merged.abs.Covered x ↔ page.abs.Covered x := by
        have unfilled : ¬ history.Filled := unfilled_of_merges computed
        rw [tracks.coverage x]
        tauto
      by_cases covered : page.abs.Covered x
      · rw [if_pos (same.mpr covered), tracks.kept x last covered]
        exact (if_pos covered).symm
      · rw [if_neg fun later => covered (same.mp later)]
        exact (if_neg covered).symm
  · obtain ⟨atomic, filled, atomicValid, atomicIdentity, atomicCovers, atomicData⟩ :=
      fillHoles_of_served tracks.valid lateServed zone fillStack fillApplyStack
    rw [base] at filled
    refine ⟨atomic, filled, ?_, ?_, ?_, fun x inside => ?_⟩
    · exact sameEntries_of_covers splitValid atomicValid fun x =>
        (splitCovers x).trans (atomicCovers x).symm
    · exact splitIdentity.2.1.trans atomicIdentity.2.1.symm
    · exact splitIdentity.1.trans atomicIdentity.1.symm
    · rw [splitData x inside, atomicData x inside]

/-- An empty file serves every read with nothing. -/
theorem readsServed_of_empty (page : ScrapPage UInt8) :
    ReadsServed cfg page (File.ofBytes 0 fun _ => 0) fun _ => .count 0 where
  succeeds := by simp
  whole := by
    intro i run delivered _ _
    simp [File.available, File.ofBytes]

/-- A merge of two bytes between the snapshot and the fill of a fresh page over an empty file. -/
theorem split_fill_eq_atomic_of_stripe :
    ∃ history merged read split atomic,
      runOps ([lowStripe].map .merge) []
        (Layout.scrapPageAlloc 0 0 fun _ => 9 : Layout.Page Config.oneEntry.maxEntries UInt8) =
          some (history, merged) ∧
      Layout.scrapPageApplyHoles (.replicate 2 ⟨0, 0⟩) merged read = some split ∧
      Layout.scrapPageFillHoles (.replicate 2 ⟨0, 0⟩) (.replicate 2 ⟨0, 0⟩) merged
        (fun x => (File.ofBytes 0 fun _ => 0).byte (0 + x)) (fun _ => 0) (fun _ => .count 0)
        (some fun _ => 5) = some (true, atomic) ∧
      SameEntries split atomic ∧ ∀ x < zoneSize, split.data x = atomic.data x := by
  obtain ⟨holes, nh, asked, read, history, merged, split, -, -, computed, applied, -, -, -, atomic⟩ :=
    split_fill_eq_atomic Config.oneEntry (Layout.scrapPageAlloc 0 0 fun _ => 9)
      (Layout.scrapPageAlloc_valid 0 0 _) (File.ofBytes 0 fun _ => 0) [lowStripe] (by decide)
      (fun _ => .count 0) (readsServed_of_empty _) (fun _ => 7) (.replicate 2 ⟨0, 0⟩)
      (.replicate 2 ⟨0, 0⟩)
  obtain ⟨atomic, filled, entries, -, -, data⟩ := atomic (fun _ => .count 0)
    (readsServed_of_empty _) (fun _ => 5) (.replicate 2 ⟨0, 0⟩) (.replicate 2 ⟨0, 0⟩)
  exact ⟨history, merged, read, split, atomic, computed, applied, filled, entries, data⟩

end NoxDB

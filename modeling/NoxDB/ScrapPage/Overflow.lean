import NoxDB.Library.MaximalRuns
import NoxDB.ScrapPage.Bounds

/-! # Overflow is exact

`coalesce_insert` gives up at three points of its sweep.  Whichever it is, the reason is the
same: the old coverage and the new range together have more maximal runs than the header has
entries (`merge_overflow_iff`).
-/

namespace NoxDB

open Library.Segments

variable {α : Type}

/-- The old coverage together with the range of a merge. -/
def ScrapPage.Union (page : ScrapPage α) (intra len x : Nat) : Prop :=
  page.Covered x ∨ intra ≤ x ∧ x < intra + len

theorem runCount_union {maxEntries intra len : Nat} {page : ScrapPage α}
    (wellFormed : page.WellFormed maxEntries) (positive : 0 < len) :
    runCount (page.Union intra len) = (insertSegment page.hdr.entries intra len).length := by
  rw [← (insertSegment_separated wellFormed.separated positive).runCount_eq]
  exact runCount_congr fun x => (covers_insertSegment wellFormed.separated positive).symm

/-- A merge is rejected exactly when the union has too many maximal runs. -/
theorem merge_overflow_iff {maxEntries intra len : Nat} {page : ScrapPage α}
    (wellFormed : page.WellFormed maxEntries) (positive : 0 < len) (buf : Nat → α) :
    (scrapPageMerge maxEntries page buf intra len).1 = .overflow ↔
      maxEntries < runCount (page.Union intra len) := by
  rw [runCount_union wellFormed positive, scrapPageMerge, coalesceInsert_eq]
  by_cases tooMany : maxEntries < (insertSegment page.hdr.entries intra len).length
  · simp [tooMany]
  · simp [tooMany]

/-- For a valid page and any range inside the zone, `scrap_page_merge` accesses no slot outside
its arrays; it overflows exactly when the union has more maximal runs than there are entries,
and leaves the page as it was then; a full or an empty page never overflows. -/
theorem overflow_exact (cfg : Config) (page : Layout.Page cfg.maxEntries α) (valid : page.Valid)
    (buf : Nat → α) (intra len : UInt32) (positive : 0 < len.toNat)
    (room : intra.toNat + len.toNat ≤ zoneSize)
    (scratch : Vector Layout.Entry (cfg.maxEntries + 1)) :
    ∃ status merged, Layout.scrapPageMerge scratch page buf intra len = some (status, merged) ∧
      (status = .overflow ↔
        cfg.maxEntries < runCount (page.abs.Union intra.toNat len.toNat)) ∧
      (status = .overflow → merged = page) ∧
      (Layout.scrapPageIsFull page = true → status = .ok) ∧
      (page.hdr.number = 0 → status = .ok) := by
  obtain ⟨status, merged, computed, onList, -, kept⟩ :=
    Layout.scrapPageMerge_spec cfg.maxEntries_le valid positive room buf scratch
  have first : (scrapPageMerge cfg.maxEntries page.abs buf intra.toNat len.toNat).1 = status :=
    congrArg Prod.fst onList
  refine ⟨status, merged, computed, ?_, kept, ?_, ?_⟩
  · rw [← first]
    exact merge_overflow_iff valid.wellFormed positive buf
  · intro full
    rw [Layout.scrapPageIsFull_abs] at full
    rw [← first]
    exact scrapPageMerge_of_full cfg.maxEntries_pos valid.wellFormed full positive room
  · intro empty
    rw [← first]
    apply scrapPageMerge_of_empty cfg.maxEntries_pos
    have none : page.abs.hdr.entries = Layout.segments page.hdr.entries page.hdr.number.toNat := rfl
    rw [none, empty]
    simp [Layout.segments]

/-- In a one-entry build a fresh page takes one byte, and then no second one apart from it. -/
theorem overflow_exact_of_two :
    ∃ first : Layout.Page Config.oneEntry.maxEntries UInt8,
      Layout.scrapPageMerge (.replicate 2 ⟨0, 0⟩)
        (Layout.scrapPageAlloc 0 0 fun _ => 0 : Layout.Page Config.oneEntry.maxEntries UInt8)
        (fun _ => 1) 5 1 = some (.ok, first) ∧
      Layout.scrapPageMerge (.replicate 2 ⟨0, 0⟩) first (fun _ => 1) 9 1 =
        some (.overflow, first) := by
  let fresh : Layout.Page Config.oneEntry.maxEntries UInt8 := Layout.scrapPageAlloc 0 0 fun _ => 0
  have empty : fresh.Valid := Layout.scrapPageAlloc_valid 0 0 fun _ => 0
  obtain ⟨status, first, computed, onList, valid, -⟩ := Layout.scrapPageMerge_spec (by decide)
    empty (by decide : 0 < (1 : UInt32).toNat) (by decide : (5 : UInt32).toNat + 1 ≤ zoneSize)
    (fun _ => 1) (.replicate 2 ⟨0, 0⟩)
  obtain ⟨_, _, again, -, -, -, fits⟩ := overflow_exact Config.oneEntry fresh empty (fun _ => 1) 5 1
    (by decide) (by decide) (.replicate 2 ⟨0, 0⟩)
  obtain ⟨other, kept, second, overflows, unchanged, -, -⟩ := overflow_exact Config.oneEntry first
    valid (fun _ => 1) 9 1 (by decide) (by decide) (.replicate 2 ⟨0, 0⟩)
  obtain ⟨rfl, -⟩ := Prod.mk.inj (Option.some.inj (again.symm.trans computed))
  have full : other = .overflow := by
    have list : (scrapPageMerge 1 fresh.abs (fun _ => 1) 5 1).2 = first.abs := congrArg Prod.snd onList
    rw [overflows]
    refine (merge_overflow_iff valid.wellFormed (by decide) fun _ => 1).mp ?_
    rw [← list]
    decide
  refine ⟨first, ?_, ?_⟩
  · rw [fits rfl] at computed
    exact computed
  · rw [unchanged full, full] at second
    exact second

end NoxDB

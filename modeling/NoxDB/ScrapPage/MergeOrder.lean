import NoxDB.ScrapPage.History

/-! # The order of the merges

Two sequences of accepted merges that write the same bytes of the zone leave the same header,
because a set of bytes has one separated presentation.  When the ranges of a sequence are
disjoint, each byte has one writer, so a permutation of it leaves the same bytes as well.
-/

namespace NoxDB

open Library.Segments

variable {maxEntries : Nat} {α : Type}

/-- The merges, in order, on a page fresh from `scrap_page_alloc`, all return `SCRAP_OK` and leave
`page`. -/
def Leaves (calls : List (MergeCall maxEntries α)) (base : Nat) (ssdId : UInt16) (zone : Nat → α)
    (page : Layout.Page maxEntries α) : Prop :=
  ∃ history, runOps (calls.map .merge) [] (Layout.scrapPageAlloc base ssdId zone) =
      some (history, page) ∧ ∀ entry ∈ history, entry.2 = .ok

/-- The same `counter`, `number` and `entries[0..number)`. -/
structure SameEntries (first second : Layout.Page maxEntries α) : Prop where
  counter : first.hdr.counter = second.hdr.counter
  number : first.hdr.number = second.hdr.number
  entries : first.hdr.entries.toList.take first.hdr.number.toNat =
    second.hdr.entries.toList.take second.hdr.number.toNat

/-- Some call of the sequence writes byte `x`. -/
def Wrote (calls : List (MergeCall maxEntries α)) (x : Nat) : Prop :=
  ∃ call ∈ calls, call.Covers x

theorem history_of_run {ops : List (PageOp maxEntries α)} {history history' : History maxEntries α}
    {page page' : Layout.Page maxEntries α}
    (computed : runOps ops history page = some (history', page')) :
    history'.map Prod.fst = ops.reverse ++ history.map Prod.fst := by
  induction ops generalizing history page with
  | nil =>
    simp only [runOps, Option.some.injEq, Prod.mk.injEq] at computed
    simp [computed.1]
  | cons op ops inductionHypothesis =>
    rw [runOps] at computed
    cases stepped : op.run page with
    | none => simp [stepped] at computed
    | some result =>
      rw [stepped] at computed
      simpa using inductionHypothesis computed

theorem unfilled_of_merges {calls : List (MergeCall maxEntries α)} {history : History maxEntries α}
    {page page' : Layout.Page maxEntries α}
    (computed : runOps (calls.map .merge) [] page = some (history, page')) : ¬ history.Filled := by
  rintro ⟨scratch, stack, status, member⟩
  have mapped := List.mem_map_of_mem (f := Prod.fst) member
  rw [history_of_run computed] at mapped
  simp at mapped

theorem merged_of_accepted {calls : List (MergeCall maxEntries α)} {history : History maxEntries α}
    (listed : history.map Prod.fst = (calls.map PageOp.merge).reverse)
    (accepted : ∀ entry ∈ history, entry.2 = .ok) {call : MergeCall maxEntries α} :
    (PageOp.merge call, .ok) ∈ history ↔ call ∈ calls := by
  have among : (∃ status, (PageOp.merge call, status) ∈ history) ↔ call ∈ calls := by
    have mapped : PageOp.merge call ∈ history.map Prod.fst ↔ call ∈ calls := by simp [listed]
    rw [← mapped]
    simp
  rw [← among]
  refine ⟨fun member => ⟨.ok, member⟩, fun ⟨status, member⟩ => ?_⟩
  obtain rfl : status = .ok := accepted _ member
  exact member

/-- What an accepted sequence of merges leaves: canonical entries for the bytes written, and at
each of these a byte some call wrote there. -/
theorem Leaves.facts (enough : 1 ≤ maxEntries) (bound : maxEntries ≤ 255)
    {calls : List (MergeCall maxEntries α)} (admissible : ∀ call ∈ calls, call.Admissible)
    {base : Nat} {ssdId : UInt16} {zone : Nat → α} {page : Layout.Page maxEntries α}
    (leaves : Leaves calls base ssdId zone page) :
    page.Valid ∧ (∀ x, Covers page.entries x ↔ Wrote calls x) ∧
      (∀ x, Wrote calls x → ∃ call ∈ calls, call.Covers x ∧ page.data x = call.value x) ∧
      page.hdr.ssdId = ssdId ∧ page.hdr.tag = .opened := by
  obtain ⟨history, computed, accepted⟩ := leaves
  have listed := history_of_run computed
  rw [List.map_nil, List.append_nil] at listed
  have empty : ∀ x, ¬ (Layout.scrapPageAlloc base ssdId zone :
      Layout.Page maxEntries α).abs.Covered x := fresh_not_covered base ssdId zone
  obtain ⟨history', page', again, tracks⟩ := tracks_of_run
    (.refl (Layout.scrapPageAlloc_valid base ssdId zone)) enough bound
    (show ∀ op ∈ calls.map PageOp.merge, op.Admissible by simpa [PageOp.Admissible] using admissible)
  obtain ⟨rfl, rfl⟩ : history = history' ∧ page = page' := by
    rw [computed] at again
    simpa using again
  have accepts : ∀ call, (PageOp.merge call, .ok) ∈ history ↔ call ∈ calls := fun call =>
    merged_of_accepted listed accepted
  have unfilled : ¬ history.Filled := unfilled_of_merges computed
  have merged : ∀ x, history.Merged x ↔ Wrote calls x := fun x => by
    simp only [History.Merged, Wrote, accepts]
  refine ⟨tracks.valid, fun x => ?_, fun x written => ?_, tracks.identity.1,
    tracks.identity.2.1⟩
  · rw [← merged x]
    exact (tracks.coverage x).trans (by simp [unfilled, empty x])
  · obtain ⟨byte, last⟩ := History.lastMerged_of_merged ((merged x).mpr written)
    obtain ⟨call, member, covers, value⟩ := History.merged_of_lastMerged last
    exact ⟨call, (accepts call).mp member, covers, by rw [tracks.last x byte last, value]⟩

theorem Layout.Entry.segment_injective : Function.Injective Layout.Entry.segment := by
  rintro ⟨firstOffset, firstSize⟩ ⟨secondOffset, secondSize⟩ same
  simp only [Layout.Entry.segment, Segment.mk.injEq, UInt32.toNat_inj] at same
  rw [same.1, same.2]

/-- Valid pages that cover the same bytes have the same entries. -/
theorem sameEntries_of_covers {first second : Layout.Page maxEntries α} (firstValid : first.Valid)
    (secondValid : second.Valid)
    (same : ∀ x, Covers first.entries x ↔ Covers second.entries x) : SameEntries first second := by
  have entries : first.entries = second.entries :=
    firstValid.wellFormed.separated.ext secondValid.wellFormed.separated same
  refine ⟨?_, ?_, ?_⟩
  · apply UInt32.toNat_inj.mp
    have left : first.hdr.counter.toNat = total first.entries := firstValid.wellFormed.counted
    have right : second.hdr.counter.toNat = total second.entries := secondValid.wellFormed.counted
    rw [left, right, entries]
  · apply UInt8.toNat_inj.mp
    rw [← Layout.length_segments first.hdr.entries firstValid.slotted,
      ← Layout.length_segments second.hdr.entries secondValid.slotted]
    exact congrArg List.length entries
  · exact (List.map_inj_right fun _ _ same => Layout.Entry.segment_injective same).mp entries

/-- Accepted merges that write the same bytes leave the same entries; a permutation of merges with
disjoint ranges also leaves the same bytes, and on the same device the same header. -/
theorem merge_order_irrelevant (cfg : Config) (first second : List (MergeCall cfg.maxEntries α))
    (firstAdmissible : ∀ call ∈ first, call.Admissible)
    (secondAdmissible : ∀ call ∈ second, call.Admissible) (firstBase secondBase : Nat)
    (firstId secondId : UInt16) (firstZone secondZone : Nat → α)
    (firstPage secondPage : Layout.Page cfg.maxEntries α)
    (firstLeaves : Leaves first firstBase firstId firstZone firstPage)
    (secondLeaves : Leaves second secondBase secondId secondZone secondPage) :
    ((∀ x, Wrote first x ↔ Wrote second x) → SameEntries firstPage secondPage) ∧
      (first.Pairwise (fun left right => ∀ x, ¬ (left.Covers x ∧ right.Covers x)) →
        second.Perm first →
        SameEntries firstPage secondPage ∧
          (∀ x, Covers firstPage.entries x → firstPage.data x = secondPage.data x) ∧
          firstPage.hdr.tag = secondPage.hdr.tag ∧
          (firstId = secondId → firstPage.hdr.ssdId = secondPage.hdr.ssdId)) := by
  obtain ⟨firstValid, firstCovers, firstData, firstSsd, firstTag⟩ :=
    firstLeaves.facts cfg.maxEntries_pos cfg.maxEntries_le firstAdmissible
  obtain ⟨secondValid, secondCovers, secondData, secondSsd, secondTag⟩ :=
    secondLeaves.facts cfg.maxEntries_pos cfg.maxEntries_le secondAdmissible
  have entries (same : ∀ x, Wrote first x ↔ Wrote second x) :
      SameEntries firstPage secondPage :=
    sameEntries_of_covers firstValid secondValid fun x =>
      (firstCovers x).trans ((same x).trans (secondCovers x).symm)
  refine ⟨entries, fun disjoint permuted => ?_⟩
  have same : ∀ x, Wrote first x ↔ Wrote second x := fun x => by
    simp only [Wrote, permuted.mem_iff]
  refine ⟨entries same, fun x covered => ?_, firstTag.trans secondTag.symm, fun device => ?_⟩
  · have written := (firstCovers x).mp covered
    obtain ⟨left, leftMem, leftCovers, leftValue⟩ := firstData x written
    obtain ⟨right, rightMem, rightCovers, rightValue⟩ := secondData x ((same x).mp written)
    -- Each byte has one writer among disjoint ranges.
    obtain ⟨i, iBound, rfl⟩ := List.getElem_of_mem leftMem
    obtain ⟨j, jBound, rfl⟩ := List.getElem_of_mem (permuted.mem_iff.mp rightMem)
    have apart := List.pairwise_iff_getElem.mp disjoint
    rcases lt_trichotomy i j with earlier | rfl | later
    · exact absurd ⟨leftCovers, rightCovers⟩ (apart i j iBound jBound earlier x)
    · rw [leftValue, rightValue]
    · exact absurd ⟨rightCovers, leftCovers⟩ (apart j i jBound iBound later x)
  · rw [firstSsd, secondSsd, device]

/-! Two neighbouring stripes of one page, in both orders. -/

/-- Bytes 5 and 6. -/
def lowStripe : MergeCall 1 UInt8 := ⟨fun _ => 1, 5, 2, .replicate 2 ⟨0, 0⟩⟩

/-- Byte 7. -/
def highStripe : MergeCall 1 UInt8 := ⟨fun _ => 2, 7, 1, .replicate 2 ⟨0, 0⟩⟩

theorem stripes_apart (x : Nat) : ¬ (lowStripe.Covers x ∧ highStripe.Covers x) := by
  rintro ⟨⟨-, below⟩, above, -⟩
  change x < 7 at below
  change 7 ≤ x at above
  omega

theorem exists_leaves {calls : List (MergeCall maxEntries α)} {base : Nat} {ssdId : UInt16}
    {zone : Nat → α}
    (accepted : (runOps (calls.map .merge) [] (Layout.scrapPageAlloc base ssdId zone)).map
      (fun result => result.1.all (·.2 == .ok)) = some true) :
    ∃ page, Leaves calls base ssdId zone page := by
  obtain ⟨⟨history, page⟩, computed, all⟩ := Option.map_eq_some_iff.mp accepted
  exact ⟨page, history, computed, by simpa using all⟩

theorem merge_order_irrelevant_of_stripes :
    ∃ first second : Layout.Page Config.oneEntry.maxEntries UInt8,
      Leaves [lowStripe, highStripe] 0 0 (fun _ => 0) first ∧
      Leaves [highStripe, lowStripe] 0 0 (fun _ => 9) second ∧ SameEntries first second ∧
      ∀ x, Covers first.entries x → first.data x = second.data x := by
  obtain ⟨first, firstLeaves⟩ := exists_leaves
    (show (runOps ([lowStripe, highStripe].map .merge) []
      (Layout.scrapPageAlloc 0 0 fun _ => 0)).map _ = some true by decide +kernel)
  obtain ⟨second, secondLeaves⟩ := exists_leaves
    (show (runOps ([highStripe, lowStripe].map .merge) []
      (Layout.scrapPageAlloc 0 0 fun _ => 9)).map _ = some true by decide +kernel)
  have both := merge_order_irrelevant Config.oneEntry [lowStripe, highStripe]
    [highStripe, lowStripe] (by decide) (by decide) 0 0 0 0 (fun _ => 0) (fun _ => 9) first second
    firstLeaves secondLeaves
  obtain ⟨entries, data, -⟩ := both.2 (List.pairwise_pair.mpr stripes_apart) (List.Perm.swap _ _ _)
  exact ⟨first, second, firstLeaves, secondLeaves, entries, data⟩

end NoxDB

import NoxDB.ScrapPage.Bounds

/-! # The hole list is the complement

What `scrap_page_hole_ranges` writes, slot by slot: below the count it returns the holes, and
nothing at or above it (`holeRangesFrom_frame`).  With more room than the page has entries the
walk never stops early (`holeRangesFrom_max`), so entries and holes together are a partition of
the zone.
-/

namespace NoxDB

open Library.Segments

namespace Layout

variable {maxEntries slots : Nat} {hdr : Header maxEntries} {n cursor k : UInt32}

theorem store_frame {array array' : Vector Entry slots} {i : UInt32} {entry : Entry}
    (stored : store array i entry = some array') (j : Nat) (other : j ≠ i.toNat) :
    array'[j]? = array[j]? := by
  rw [store] at stored
  split at stored
  · obtain rfl := Option.some.inj stored
    exact Vector.getElem?_set_ne _ other.symm
  · contradiction

theorem store_lt {array array' : Vector Entry slots} {i : UInt32} {entry : Entry}
    (stored : store array i entry = some array') : i.toNat < slots := by
  rw [store] at stored
  split at stored
  · assumption
  · contradiction

/-- The walk writes only below the count it returns. -/
theorem holeRangesFrom_frame (max : UInt32) {out out' : Vector Entry slots} {n' : UInt32}
    (small : slots ≤ 256) (walked : holeRangesFrom hdr max out n cursor k = some (out', n')) :
    n.toNat ≤ n'.toNat ∧ ∀ j, n'.toNat ≤ j → out'[j]? = out[j]? := by
  fun_induction holeRangesFrom hdr max out n cursor k with
  | case1 => contradiction
  | case2 out n cursor k below entry loaded gap full =>
    simp only [Option.some.injEq, Prod.mk.injEq] at walked
    obtain ⟨rfl, rfl⟩ := walked
    exact ⟨le_rfl, fun _ _ => rfl⟩
  | case3 => contradiction
  | case4 out n cursor k below entry loaded gap room next stored inductionHypothesis =>
    obtain ⟨grows, same⟩ := inductionHypothesis walked
    -- The slot written now is below the count, which only grows from here.
    have slot := store_lt stored
    rw [toNat_succ (by omega)] at grows
    refine ⟨by omega, fun j above => (same j above).trans (store_frame stored j (by omega))⟩
  | case5 out n cursor k below entry loaded noGap inductionHypothesis =>
    exact inductionHypothesis walked
  | case6 => contradiction
  | case7 out n cursor k last room next stored =>
    simp only [Option.some.injEq, Prod.mk.injEq] at walked
    obtain ⟨rfl, rfl⟩ := walked
    have slot := store_lt stored
    rw [toNat_succ (by omega)]
    exact ⟨by omega, fun j above => store_frame stored j (by omega)⟩
  | case8 out n cursor k last noRoom =>
    simp only [Option.some.injEq, Prod.mk.injEq] at walked
    obtain ⟨rfl, rfl⟩ := walked
    exact ⟨le_rfl, fun _ _ => rfl⟩

/-- With more room than there are entries left, `max` does not matter. -/
theorem holeRangesFrom_max {max max' : UInt32} (out : Vector Entry slots) (small : slots ≤ 256)
    (room : n.toNat + (hdr.number.toNat - k.toNat) < max.toNat)
    (room' : n.toNat + (hdr.number.toNat - k.toNat) < max'.toNat) :
    holeRangesFrom hdr max out n cursor k = holeRangesFrom hdr max' out n cursor k := by
  fun_induction holeRangesFrom hdr max out n cursor k with
  | case1 out n cursor k below empty =>
    rw [holeRangesFrom, dif_pos below, empty]
  | case2 out n cursor k below entry loaded gap full =>
    -- There is room for a hole before each entry that is left, so this test is never true.
    have inside := below_iff.mp below
    have beyond := UInt32.le_iff_toNat_le.mp full
    omega
  | case3 out n cursor k below entry loaded gap open_ failed =>
    have inside := below_iff.mp below
    have open' : ¬ max' ≤ n := by
      rw [UInt32.le_iff_toNat_le]
      omega
    rw [holeRangesFrom, dif_pos below, loaded]
    simp only [if_pos gap, if_neg open', failed]
  | case4 out n cursor k below entry loaded gap open_ next stored inductionHypothesis =>
    have inside := below_iff.mp below
    have slot := store_lt stored
    have index := hdr.number.toNat_lt
    have open' : ¬ max' ≤ n := by
      rw [UInt32.le_iff_toNat_le]
      omega
    rw [toNat_succ (i := n) (by omega), toNat_succ (i := k) (by omega)] at inductionHypothesis
    rw [inductionHypothesis (by omega) (by omega), holeRangesFrom.eq_1 hdr max' out n, dif_pos below,
      loaded]
    simp only [if_pos gap, if_neg open', stored]
  | case5 out n cursor k below entry loaded noGap inductionHypothesis =>
    have inside := below_iff.mp below
    have index := hdr.number.toNat_lt
    rw [toNat_succ (i := k) (by omega)] at inductionHypothesis
    rw [inductionHypothesis (by omega) (by omega), holeRangesFrom.eq_1 hdr max' out n cursor k,
      dif_pos below, loaded]
    simp only [if_neg noGap]
  | case6 out n cursor k last inside failed =>
    have open' : cursor < zoneWord ∧ n < max' :=
      ⟨inside.1, UInt32.lt_iff_toNat_lt.mpr (by omega)⟩
    rw [holeRangesFrom, dif_neg last, if_pos open', failed]
  | case7 out n cursor k last inside next stored =>
    have open' : cursor < zoneWord ∧ n < max' :=
      ⟨inside.1, UInt32.lt_iff_toNat_lt.mpr (by omega)⟩
    rw [holeRangesFrom, dif_neg last, if_pos open', stored]
  | case8 out n cursor k last outside =>
    have closed : ¬ (cursor < zoneWord ∧ n < max') := fun both =>
      outside ⟨both.1, UInt32.lt_iff_toNat_lt.mpr (by omega)⟩
    rw [holeRangesFrom, dif_neg last, if_neg closed]

end Layout

theorem length_holeRangesFrom (max : Nat) (entries : List ScrapEntry) (cursor n : Nat) :
    (holeRangesFrom max entries cursor n).length ≤ entries.length + 1 := by
  induction entries generalizing cursor n with
  | nil =>
    rw [holeRangesFrom]
    split <;> simp
  | cons entry rest inductionHypothesis =>
    rw [holeRangesFrom]
    split
    · split
      · simp
      · exact Nat.succ_le_succ (inductionHypothesis _ _)
    · exact le_trans (inductionHypothesis _ _) (Nat.le_succ _)

/-- The segments of a separated list are disjoint: a number lies in one of them or in none. -/
theorem countP_of_separated {segments : List Segment} (separated : Separated segments) (x : Nat) :
    segments.countP (fun segment => segment.Contains x) = if Covers segments x then 1 else 0 := by
  induction segments with
  | nil => simp
  | cons segment rest inductionHypothesis =>
    rw [List.countP_cons, inductionHypothesis separated.tail]
    by_cases inside : segment.Contains x
    -- The rest lies behind the end of the segment that has `x`.
    · have later : ¬ Covers rest x := fun covered =>
        absurd (separated.stop_lt_of_covers covered) (not_lt.mpr inside.2.le)
      simp [inside, later]
    · simp [inside]

/-- For every number of entries a build can have and every valid page: the walk with room for one
hole more than there are entries touches no slot outside its arrays, returns at most one hole more
than the page has entries, leaves the slots behind that as they were, and would return the same
with more room; the holes are nonempty, sorted, inside the zone and not adjacent, and every byte of
the zone lies in exactly one entry or hole. -/
theorem hole_list_exact {α : Type} (cfg : Config) (page : Layout.Page cfg.maxEntries α)
    (valid : page.Valid) (out : Vector Layout.Entry (cfg.maxEntries + 1)) :
    ∃ holes nh,
      Layout.scrapPageHoleRanges page out (Layout.maxWord cfg.maxEntries + 1) = some (holes, nh) ∧
      (∀ max : UInt32, page.hdr.number.toNat < max.toNat →
        Layout.scrapPageHoleRanges page out max = some (holes, nh)) ∧
      nh.toNat ≤ page.hdr.number.toNat + 1 ∧
      (∀ i, page.hdr.number.toNat + 1 ≤ i → holes[i]? = out[i]?) ∧
      (∀ hole ∈ Layout.segments holes nh.toNat, 0 < hole.size ∧ hole.stop ≤ zoneSize) ∧
      (Layout.segments holes nh.toNat).Pairwise (fun left right => left.stop < right.offset) ∧
      ∀ x < zoneSize,
        (Layout.segments page.hdr.entries page.hdr.number.toNat ++
          Layout.segments holes nh.toNat).countP (fun segment => segment.Contains x) = 1 := by
  have bound := cfg.maxEntries_le
  have slotted := valid.slotted
  obtain ⟨holes, nh, walked, holds⟩ := Layout.scrapPageHoleRanges_spec bound valid out
  have separated := scrapPageHoleRanges_separated valid.wellFormed (cfg.maxEntries + 1)
  -- At most one hole before each entry and one at the end.
  have count : nh.toNat ≤ page.hdr.number.toNat + 1 := by
    rw [← holds.length, ← Layout.length_segments page.hdr.entries slotted]
    exact length_holeRangesFrom _ _ _ _
  have frame := (Layout.holeRangesFrom_frame _ (by omega) walked).2
  refine ⟨holes, nh, walked, ?_, count, fun i above => frame i (by omega), ?_⟩
  · intro max room
    rw [← walked]
    refine Layout.holeRangesFrom_max out (by omega) (by simpa using room) ?_
    rw [Layout.toNat_maxWord_succ bound]
    simp only [UInt32.toNat_zero]
    omega
  · rw [holds.behind]
    refine ⟨fun hole member => ⟨separated.nonempty hole member,
      scrapPageHoleRanges_bounded valid.wellFormed hole member⟩, separated.gaps, ?_⟩
    intro x inside
    have entries : (Layout.segments page.hdr.entries page.hdr.number.toNat).countP
        (fun segment => segment.Contains x) = if page.abs.Covered x then 1 else 0 :=
      countP_of_separated valid.wellFormed.separated x
    -- A byte is in a hole exactly if it is in no entry.
    have complement := covers_scrapPageHoleRanges x valid.wellFormed
    rw [List.countP_append, entries, countP_of_separated separated]
    by_cases covered : page.abs.Covered x
    · rw [if_pos covered, if_neg fun hole => (complement.mp hole).2 covered]
    · rw [if_neg covered, if_pos (complement.mpr ⟨inside, covered⟩)]

/-- A page with ten bytes at offset 5. -/
def tenBytesPage : Layout.Page Config.standard.maxEntries UInt8 where
  hdr := ⟨10, 0, 1, .opened, .replicate _ ⟨5, 10⟩⟩
  data := fun _ => 1
  base := 0
  inQueue := true
  detached := false

theorem tenBytesPage_valid : tenBytesPage.Valid where
  slotted := by decide
  wellFormed := by
    have entries : tenBytesPage.abs.hdr.entries = [⟨5, 10⟩] := rfl
    refine ⟨?_, ?_, ?_, ?_⟩
    · rw [entries]
      exact .singleton (by decide)
    · rw [entries]
      decide
    · rw [ScrapHeader.number, entries]
      decide
    · rw [entries]
      rfl

/-- Its two holes are the five bytes before and the rest of the zone. -/
theorem hole_list_exact_of_ten :
    ∃ holes nh, Layout.scrapPageHoleRanges tenBytesPage
        (.replicate (Config.standard.maxEntries + 1) ⟨0, 0⟩)
        (Layout.maxWord Config.standard.maxEntries + 1) = some (holes, nh) ∧
      nh.toNat ≤ 2 ∧ (⟨5, 10⟩ :: Layout.segments holes nh.toNat).countP
        (fun segment => segment.Contains 4) = 1 := by
  obtain ⟨holes, nh, walked, -, count, -, -, -, once⟩ :=
    hole_list_exact Config.standard tenBytesPage tenBytesPage_valid (.replicate _ ⟨0, 0⟩)
  exact ⟨holes, nh, walked, count, once 4 (by decide)⟩

end NoxDB

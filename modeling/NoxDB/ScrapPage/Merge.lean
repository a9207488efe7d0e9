import Mathlib.Data.List.TakeWhile
import NoxDB.ScrapPage

/-! # The coalescing insert keeps the header canonical

`insertSegment` is the list the three-phase sweep of `coalesce_insert` builds.
`coalesceInsert_eq` says that the sweep commits this list exactly when it fits,
whatever the point at which it notices an overflow; `insertSegment_separated` and
`covers_insertSegment` say that the list is the canonical presentation of the old
coverage together with the new range.
-/

namespace NoxDB

open Library.Segments

/-- What the header of a page must satisfy between operations. -/
structure ScrapHeader.WellFormed (maxEntries : Nat) (hdr : ScrapHeader) : Prop where
  separated : Separated hdr.entries
  bounded : ∀ entry ∈ hdr.entries, entry.stop ≤ zoneSize
  fits : hdr.number ≤ maxEntries
  counted : hdr.counter = total hdr.entries

variable {α : Type}

/-- Byte `x` of the zone holds user data or data filled in from the device. -/
def ScrapPage.Covered (page : ScrapPage α) (x : Nat) : Prop := Covers page.hdr.entries x

instance (page : ScrapPage α) (x : Nat) : Decidable (page.Covered x) :=
  inferInstanceAs (Decidable (Covers _ _))

abbrev ScrapPage.WellFormed (maxEntries : Nat) (page : ScrapPage α) : Prop :=
  page.hdr.WellFormed maxEntries

theorem scrapPageAlloc_wellFormed (maxEntries base ssdId : Nat) (zone : Nat → α) :
    (scrapPageAlloc base ssdId zone).WellFormed maxEntries :=
  ⟨.nil, by simp [scrapPageAlloc], by simp [scrapPageAlloc, ScrapHeader.number], rfl⟩

theorem ScrapPage.Covered.lt {maxEntries x : Nat} {page : ScrapPage α}
    (wellFormed : page.WellFormed maxEntries) (covered : page.Covered x) : x < zoneSize := by
  obtain ⟨entry, member, inside⟩ := covered
  exact lt_of_lt_of_le inside.2 (wellFormed.bounded entry member)

theorem scrapPageIsFull_iff_entries {maxEntries : Nat} {page : ScrapPage α}
    (wellFormed : page.WellFormed maxEntries) :
    scrapPageIsFull page = true ↔ page.hdr.entries = [⟨0, zoneSize⟩] := by
  rw [scrapPageIsFull, beq_iff_eq, wellFormed.counted]
  exact wellFormed.separated.total_eq_iff (by decide) wellFormed.bounded

/-- A page is full exactly when its entries cover the whole zone. -/
theorem scrapPageIsFull_iff {maxEntries : Nat} {page : ScrapPage α}
    (wellFormed : page.WellFormed maxEntries) :
    scrapPageIsFull page = true ↔ ∀ x < zoneSize, page.Covered x := by
  rw [scrapPageIsFull_iff_entries wellFormed]
  exact (wellFormed.separated.covers_all_iff (by decide) wellFormed.bounded).symm

/-! ## The list the sweep builds -/

def insertSegment (entries : List ScrapEntry) (off len : Nat) : List ScrapEntry :=
  let skipped := entries.takeWhile fun entry => entry.offset + entry.size < off
  let others := entries.dropWhile fun entry => entry.offset + entry.size < off
  let (newOff, newEnd, rest) := absorb others off (off + len)
  skipped ++ ⟨newOff, newEnd - newOff⟩ :: rest

theorem copyRest_some {maxEntries : Nat} {rest out result : List ScrapEntry}
    (copied : copyRest maxEntries rest out = some result) : result = out ++ rest := by
  induction rest generalizing out with
  | nil => simpa [copyRest] using copied.symm
  | cons entry rest inductionHypothesis =>
    rw [copyRest] at copied
    split at copied
    · contradiction
    · simpa using inductionHypothesis copied

theorem copyRest_none {maxEntries : Nat} {rest out : List ScrapEntry}
    (stuck : copyRest maxEntries rest out = none) : maxEntries < out.length + rest.length := by
  induction rest generalizing out with
  | nil => simp [copyRest] at stuck
  | cons entry rest inductionHypothesis =>
    rw [copyRest] at stuck
    split at stuck
    · simp only [List.length_cons]; omega
    · have := inductionHypothesis stuck
      simp only [List.length_append, List.length_cons, List.length_nil] at this ⊢
      omega

/-- The sweep overflows exactly when the list it builds has too many entries, and
leaves the header untouched then. -/
theorem coalesceInsert_eq (maxEntries : Nat) (hdr : ScrapHeader) (off len : Nat) :
    coalesceInsert maxEntries hdr off len =
      if maxEntries < (insertSegment hdr.entries off len).length then (.overflow, hdr)
      else (.ok, { hdr with
        entries := insertSegment hdr.entries off len
        counter := total (insertSegment hdr.entries off len) }) := by
  rw [coalesceInsert, insertSegment]
  dsimp only
  generalize absorb _ off (off + len) = absorbed
  generalize hdr.entries.takeWhile _ = skipped
  obtain ⟨newOff, newEnd, rest⟩ := absorbed
  dsimp only
  by_cases early : maxEntries + 1 ≤ skipped.length
  · rw [if_pos early, if_pos (by simp only [List.length_append]; omega)]
  · rw [if_neg early]
    cases copied : copyRest maxEntries rest (skipped ++ [⟨newOff, newEnd - newOff⟩]) with
    | none =>
      have tooMany := copyRest_none copied
      simp only [List.length_append, List.length_cons, List.length_nil] at tooMany
      rw [if_pos (by simp only [List.length_append, List.length_cons]; omega)]
    | some out =>
      obtain rfl : out = skipped ++ ⟨newOff, newEnd - newOff⟩ :: rest := by
        simpa using copyRest_some copied
      rfl

/-! ## Absorbing -/

section Absorb

variable {entries : List ScrapEntry} {newOff newEnd : Nat}

theorem absorb_bounds (entries : List ScrapEntry) (order : newOff ≤ newEnd) :
    (absorb entries newOff newEnd).1 ≤ newOff ∧ newEnd ≤ (absorb entries newOff newEnd).2.1 := by
  induction entries generalizing newOff newEnd with
  | nil => exact ⟨le_rfl, le_rfl⟩
  | cons entry rest inductionHypothesis =>
    rw [absorb]
    split
    · constructor
      · refine (inductionHypothesis ?_).1.trans ?_ <;> split_ifs <;> omega
      · refine le_trans ?_ (inductionHypothesis ?_).2 <;> split_ifs <;> omega
    · exact ⟨le_rfl, le_rfl⟩

/-- What `absorb` leaves over is a tail of the list that starts after a gap. -/
theorem absorb_rest (newOff newEnd : Nat) (separated : Separated entries) :
    Separated (absorb entries newOff newEnd).2.2 ∧
      (∀ entry ∈ (absorb entries newOff newEnd).2.2, entry ∈ entries) ∧
      ∀ entry ∈ (absorb entries newOff newEnd).2.2,
        (absorb entries newOff newEnd).2.1 < entry.offset := by
  induction entries generalizing newOff newEnd with
  | nil => exact ⟨.nil, by simp [absorb], by simp [absorb]⟩
  | cons entry rest inductionHypothesis =>
    rw [absorb]
    split
    · obtain ⟨restSeparated, restMem, restGap⟩ := inductionHypothesis _ _ separated.tail
      exact ⟨restSeparated, fun other member => List.mem_cons_of_mem _ (restMem other member),
        restGap⟩
    · next gap =>
      refine ⟨separated, fun other member => member, ?_⟩
      rintro other (_ | ⟨_, member⟩)
      · simpa using gap
      · have := separated.head_lt member
        simp only [Segment.stop] at this
        simp only; omega

theorem absorb_covers (x : Nat) (separated : Separated entries) (order : newOff ≤ newEnd)
    (reach : ∀ entry ∈ entries, newOff ≤ entry.stop) :
    ((absorb entries newOff newEnd).1 ≤ x ∧ x < (absorb entries newOff newEnd).2.1 ∨
        Covers (absorb entries newOff newEnd).2.2 x) ↔
      (newOff ≤ x ∧ x < newEnd ∨ Covers entries x) := by
  induction entries generalizing newOff newEnd with
  | nil => simp [absorb]
  | cons entry rest inductionHypothesis =>
    rw [absorb]
    split
    · next touches =>
      have meets := reach entry (by simp)
      simp only [Segment.stop] at meets
      rw [inductionHypothesis separated.tail (by split_ifs <;> omega), covers_cons]
      · simp only [Segment.Contains, Segment.stop]
        by_cases later : Covers rest x
        · simp [later]
        · simp only [later, or_false]
          split_ifs <;> omega
      · intro other member
        have := separated.head_lt member
        simp only [Segment.stop] at this ⊢
        split_ifs <;> omega
    · simp

theorem absorb_stop_le {limit : Nat} (newOff : Nat) (bounded : ∀ entry ∈ entries, entry.stop ≤ limit)
    (start : newEnd ≤ limit) : (absorb entries newOff newEnd).2.1 ≤ limit := by
  induction entries generalizing newOff newEnd with
  | nil => exact start
  | cons entry rest inductionHypothesis =>
    rw [absorb]
    split
    · apply inductionHypothesis _ (fun other member => bounded other (List.mem_cons_of_mem _ member))
      have := bounded entry (by simp)
      simp only [Segment.stop] at this
      split_ifs <;> omega
    · exact start

theorem lt_absorb_offset {bound : Nat} (start : bound < newOff)
    (before : ∀ entry ∈ entries, bound < entry.offset) :
    bound < (absorb entries newOff newEnd).1 := by
  induction entries generalizing newOff newEnd with
  | nil => exact start
  | cons entry rest inductionHypothesis =>
    rw [absorb]
    split
    · apply inductionHypothesis _ (fun other member => before other (List.mem_cons_of_mem _ member))
      have := before entry (by simp)
      split_ifs <;> omega
    · exact start

end Absorb

/-! ## The list is canonical -/

section Insert

variable {entries : List ScrapEntry} {off len x : Nat}

/-- Past the skipped segments, every segment ends at or after the new offset. -/
theorem reach_of_mem_dropWhile (separated : Separated entries) :
    ∀ entry ∈ entries.dropWhile fun entry => entry.offset + entry.size < off,
      off ≤ entry.stop := by
  induction entries with
  | nil => simp
  | cons first rest inductionHypothesis =>
    rw [List.dropWhile_cons]
    split
    · exact inductionHypothesis separated.tail
    · next reaches =>
      simp only [decide_eq_true_eq, not_lt] at reaches
      rintro entry (_ | ⟨_, member⟩)
      · exact reaches
      · have := separated.head_lt member
        simp only [Segment.stop] at this ⊢
        omega

theorem insertSegment_parts (off len : Nat) (separated : Separated entries) :
    ∃ skipped others, entries = skipped ++ others ∧
      (∀ entry ∈ skipped, entry.stop < off) ∧ (∀ entry ∈ others, off ≤ entry.stop) ∧
      insertSegment entries off len = skipped ++
        ⟨(absorb others off (off + len)).1,
          (absorb others off (off + len)).2.1 - (absorb others off (off + len)).1⟩ ::
        (absorb others off (off + len)).2.2 :=
  ⟨entries.takeWhile fun entry => entry.offset + entry.size < off,
    entries.dropWhile fun entry => entry.offset + entry.size < off,
    List.takeWhile_append_dropWhile.symm,
    fun _ member => by simpa [Segment.stop] using List.mem_takeWhile_imp member,
    reach_of_mem_dropWhile separated, rfl⟩

theorem insertSegment_separated (separated : Separated entries) (positive : 0 < len) :
    Separated (insertSegment entries off len) := by
  obtain ⟨skipped, others, rfl, before, reach, built⟩ :=
    insertSegment_parts off len separated
  rw [built]
  have bounds := absorb_bounds others (Nat.le_add_right off len)
  obtain ⟨restSeparated, restMem, restGap⟩ :=
    absorb_rest off (off + len) separated.appendRight
  refine separated.appendLeft.append (.cons ?_ ?_ restSeparated) ?_
  · simp only; omega
  · intro entry member
    have := restGap entry member
    simp only [Segment.stop]; omega
  · rintro first firstMem second (_ | ⟨_, secondMem⟩)
    · exact lt_absorb_offset (before first firstMem)
        fun entry member => separated.append_lt firstMem member
    · exact separated.append_lt firstMem (restMem second secondMem)

theorem covers_insertSegment (separated : Separated entries) (positive : 0 < len) :
    Covers (insertSegment entries off len) x ↔ Covers entries x ∨ off ≤ x ∧ x < off + len := by
  obtain ⟨skipped, others, rfl, before, reach, built⟩ :=
    insertSegment_parts off len separated
  have bounds := absorb_bounds others (Nat.le_add_right off len)
  have grown := absorb_covers x separated.appendRight (Nat.le_add_right off len) reach
  rw [built, covers_append, covers_append, covers_cons]
  have range : (Segment.mk (absorb others off (off + len)).1
        ((absorb others off (off + len)).2.1 - (absorb others off (off + len)).1)).Contains x ↔
      (absorb others off (off + len)).1 ≤ x ∧ x < (absorb others off (off + len)).2.1 := by
    simp only [Segment.Contains, Segment.stop]
    omega
  rw [range, grown, or_assoc, or_comm (a := Covers others x)]

theorem insertSegment_bounded (separated : Separated entries)
    (bounded : ∀ entry ∈ entries, entry.stop ≤ zoneSize) (room : off + len ≤ zoneSize) :
    ∀ entry ∈ insertSegment entries off len, entry.stop ≤ zoneSize := by
  obtain ⟨skipped, others, rfl, before, reach, built⟩ :=
    insertSegment_parts off len separated
  rw [built]
  have bounds := absorb_bounds others (Nat.le_add_right off len)
  obtain ⟨restSeparated, restMem, restGap⟩ :=
    absorb_rest off (off + len) separated.appendRight
  intro entry member
  rcases List.mem_append.mp member with early | later
  · exact bounded entry (List.mem_append_left _ early)
  · rcases List.mem_cons.mp later with rfl | rest
    · have := absorb_stop_le off
        (fun other otherMem => bounded other (List.mem_append_right skipped otherMem)) room
      simp only [Segment.stop]; omega
    · exact bounded entry (List.mem_append_right _ (restMem entry rest))

end Insert

/-! ## `scrap_page_merge` -/

section Merge

variable {maxEntries intra len : Nat} {page merged : ScrapPage α} {buf : Nat → α}

/-- A rejected merge changes nothing. -/
theorem scrapPageMerge_overflow
    (rejected : scrapPageMerge maxEntries page buf intra len = (.overflow, merged)) :
    merged = page := by
  rw [scrapPageMerge, coalesceInsert_eq] at rejected
  split at rejected
  · simpa using rejected.symm
  · simp_all

/-- An accepted merge copies the bytes and commits the inserted segment. -/
theorem scrapPageMerge_ok
    (accepted : scrapPageMerge maxEntries page buf intra len = (.ok, merged)) :
    (insertSegment page.hdr.entries intra len).length ≤ maxEntries ∧
      merged = { page with
        data := copyAt page.data intra len buf
        hdr := { page.hdr with
          entries := insertSegment page.hdr.entries intra len
          counter := total (insertSegment page.hdr.entries intra len) } } := by
  rw [scrapPageMerge, coalesceInsert_eq] at accepted
  by_cases tooMany : maxEntries < (insertSegment page.hdr.entries intra len).length
  · simp [tooMany] at accepted
  · simp only [tooMany, if_false, Prod.mk.injEq, true_and] at accepted
    exact ⟨by omega, accepted.symm⟩

theorem scrapPageMerge_wellFormed (wellFormed : page.WellFormed maxEntries) (positive : 0 < len)
    (room : intra + len ≤ zoneSize)
    (accepted : scrapPageMerge maxEntries page buf intra len = (.ok, merged)) :
    merged.WellFormed maxEntries := by
  obtain ⟨fits, rfl⟩ := scrapPageMerge_ok accepted
  exact ⟨insertSegment_separated wellFormed.separated positive,
    insertSegment_bounded wellFormed.separated wellFormed.bounded room, fits, rfl⟩

theorem scrapPageMerge_covered {x : Nat} (wellFormed : page.WellFormed maxEntries)
    (positive : 0 < len) (accepted : scrapPageMerge maxEntries page buf intra len = (.ok, merged)) :
    merged.Covered x ↔ page.Covered x ∨ intra ≤ x ∧ x < intra + len := by
  obtain ⟨fits, rfl⟩ := scrapPageMerge_ok accepted
  exact covers_insertSegment wellFormed.separated positive

/-- A merge whose range leaves a single segment is never rejected. -/
theorem scrapPageMerge_ne_overflow (enough : 1 ≤ maxEntries)
    (single : (insertSegment page.hdr.entries intra len).length ≤ 1) :
    (scrapPageMerge maxEntries page buf intra len).1 = .ok := by
  rw [scrapPageMerge, coalesceInsert_eq, if_neg (by omega)]

theorem insertSegment_full {entries : List ScrapEntry} (separated : Separated entries)
    (bounded : ∀ entry ∈ entries, entry.stop ≤ zoneSize) (positive : 0 < len)
    (room : intra + len ≤ zoneSize)
    (all : ∀ x < zoneSize, Covers entries x ∨ intra ≤ x ∧ x < intra + len) :
    insertSegment entries intra len = [⟨0, zoneSize⟩] := by
  refine (Separated.covers_all_iff (by decide) (insertSegment_separated separated positive)
    (insertSegment_bounded separated bounded room)).mp fun x inside => ?_
  rw [covers_insertSegment separated positive]
  exact all x inside

/-- A merge into a full page is accepted. -/
theorem scrapPageMerge_of_full (enough : 1 ≤ maxEntries) (wellFormed : page.WellFormed maxEntries)
    (full : scrapPageIsFull page = true) (positive : 0 < len) (room : intra + len ≤ zoneSize) :
    (scrapPageMerge maxEntries page buf intra len).1 = .ok := by
  apply scrapPageMerge_ne_overflow enough
  rw [insertSegment_full wellFormed.separated wellFormed.bounded positive room]
  · simp
  · exact fun x inside => .inl ((scrapPageIsFull_iff wellFormed).mp full x inside)

/-- A merge of a whole zone is accepted. -/
theorem scrapPageMerge_of_whole (enough : 1 ≤ maxEntries) (wellFormed : page.WellFormed maxEntries)
    (room : intra + zoneSize ≤ zoneSize) :
    (scrapPageMerge maxEntries page buf intra zoneSize).1 = .ok := by
  apply scrapPageMerge_ne_overflow enough
  rw [insertSegment_full wellFormed.separated wellFormed.bounded (by decide) room]
  · simp
  · exact fun x inside => .inr (by omega)

/-- The first merge into an empty page is accepted. -/
theorem scrapPageMerge_of_empty (enough : 1 ≤ maxEntries) (empty : page.hdr.entries = []) :
    (scrapPageMerge maxEntries page buf intra len).1 = .ok := by
  apply scrapPageMerge_ne_overflow enough
  simp [empty, insertSegment, absorb]

end Merge

end NoxDB

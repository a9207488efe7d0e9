import NoxDB.ScrapPage.Layout
import NoxDB.ScrapPage.Reads

/-! # The laid-out header refines the list header

Each loop of `scrap_page.c` walks its array with a word for an index.  `Left` is what the walk
still has before it and `Holds` what an output array already contains; with the two, every loop
of `Layout` is an induction on the list that is left and computes what the list version computes
(`skip_spec`, `absorb_spec`, `copyRest_spec`, `commit_spec`, `holeRangesFrom_spec`).  The page
operations then commute with `Page.abs`, and their result is never `none`: no access leaves its
array, and no sum of offsets wraps.
-/

namespace NoxDB.Layout

open Library.Segments

variable {maxEntries slots : Nat} {α : Type}

/-- The header as a list of segments. -/
def Header.abs (hdr : Header maxEntries) : ScrapHeader where
  counter := hdr.counter.toNat
  ssdId := hdr.ssdId.toNat
  tag := hdr.tag
  entries := segments hdr.entries hdr.number.toNat

def Page.abs (page : Page maxEntries α) : ScrapPage α where
  hdr := page.hdr.abs
  data := page.data
  base := page.base
  inQueue := page.inQueue
  detached := page.detached

/-- The array has a slot for each of the `number` entries, and these are canonical. -/
structure Page.Valid (page : Page maxEntries α) : Prop where
  slotted : page.hdr.number.toNat ≤ maxEntries
  wellFormed : page.abs.WellFormed maxEntries

theorem abs_alloc (base : Nat) (ssdId : UInt16) (zone : Nat → α) :
    (scrapPageAlloc base ssdId zone : Page maxEntries α).abs =
      NoxDB.scrapPageAlloc base ssdId.toNat zone := by
  rfl

theorem scrapPageAlloc_valid (base : Nat) (ssdId : UInt16) (zone : Nat → α) :
    (scrapPageAlloc base ssdId zone : Page maxEntries α).Valid :=
  ⟨Nat.zero_le _, scrapPageAlloc_wellFormed maxEntries base ssdId.toNat zone⟩

theorem scrapPageIsFull_abs (page : Page maxEntries α) :
    scrapPageIsFull page = NoxDB.scrapPageIsFull page.abs := by
  rw [Bool.eq_iff_iff]
  simp only [scrapPageIsFull, NoxDB.scrapPageIsFull, beq_iff_eq, ← UInt32.toNat_inj]
  rfl

/-! ## Words -/

theorem toNat_add_of_lt {a b : UInt32} (small : a.toNat + b.toNat < 2 ^ 32) :
    (a + b).toNat = a.toNat + b.toNat := by
  rw [UInt32.toNat_add, Nat.mod_eq_of_lt small]

theorem toNat_succ {i : UInt32} (small : i.toNat < 2 ^ 32 - 1) : (i + 1).toNat = i.toNat + 1 := by
  rw [toNat_add_of_lt (by rw [UInt32.toNat_one]; omega), UInt32.toNat_one]

theorem toNat_maxWord (small : maxEntries ≤ 255) : (maxWord maxEntries).toNat = maxEntries := by
  rw [maxWord, UInt32.toNat_ofNat', Nat.mod_eq_of_lt (by omega)]

theorem toNat_maxWord_succ (small : maxEntries ≤ 255) :
    (maxWord maxEntries + 1).toNat = maxEntries + 1 := by
  rw [toNat_succ (by rw [toNat_maxWord small]; omega), toNat_maxWord small]

theorem Entry.toNat_stop {entry : Entry} (inside : entry.segment.stop ≤ zoneSize) :
    (entry.offset + entry.size).toNat = entry.segment.stop := by
  have stop : entry.segment.stop = entry.offset.toNat + entry.size.toNat := rfl
  rw [toNat_add_of_lt (by simp only [zoneSize] at inside; omega), stop]

/-! ## Walking an array -/

/-- A walk at slot `i` of the first `count` slots has `rest` before it. -/
structure Left (array : Vector Entry slots) (count : Nat) (i : UInt32) (rest : List Segment) :
    Prop where
  within : count ≤ slots
  index : i.toNat ≤ count
  ahead : (segments array count).drop i.toNat = rest

/-- The first `n` slots hold `done`. -/
structure Holds (array : Vector Entry slots) (n : UInt32) (done : List Segment) : Prop where
  within : n.toNat ≤ slots
  behind : segments array n.toNat = done

theorem length_segments (array : Vector Entry slots) {count : Nat} (within : count ≤ slots) :
    (segments array count).length = count := by
  simp [segments, within]

theorem Holds.length {array : Vector Entry slots} {n : UInt32} {done : List Segment}
    (holds : Holds array n done) : done.length = n.toNat := by
  rw [← holds.behind, length_segments _ holds.within]

theorem Holds.empty (array : Vector Entry slots) : Holds array 0 [] :=
  ⟨Nat.zero_le _, by simp [segments]⟩

theorem Left.start {array : Vector Entry slots} {count : Nat} (within : count ≤ slots) :
    Left array count 0 (segments array count) :=
  ⟨within, Nat.zero_le _, rfl⟩

theorem Left.not_lt {array : Vector Entry slots} {count : Nat} {i : UInt32}
    (left : Left array count i []) : ¬ i.toNat < count := by
  intro below
  have none := congrArg List.length left.ahead
  simp only [List.length_drop, length_segments _ left.within, List.length_nil] at none
  omega

/-- The next segment of a walk is the one in the slot it stands at. -/
theorem Left.next {array : Vector Entry slots} {count : Nat} {i : UInt32} {segment : Segment}
    {rest : List Segment} (left : Left array count i (segment :: rest)) (small : count ≤ 256) :
    i.toNat < count ∧ ∃ entry, load array i = some entry ∧ entry.segment = segment ∧
      Left array count (i + 1) rest := by
  have ahead := left.ahead
  have within := left.within
  have length := congrArg List.length ahead
  simp only [List.length_drop, length_segments _ within, List.length_cons] at length
  have below : i.toNat < (segments array count).length := by
    rw [length_segments _ within]
    omega
  rw [List.drop_eq_getElem_cons below] at ahead
  injection ahead with first others
  refine ⟨by omega, array[i.toNat], ?_, ?_, ?_⟩
  · simp [load, show i.toNat < slots by omega]
  · rw [← first]
    simp [segments]
  · have next := toNat_succ (i := i) (by omega)
    exact ⟨within, by omega, by rw [next]; exact others⟩

/-- Storing one more segment at the end of what an array holds. -/
theorem Holds.push {array : Vector Entry slots} {n : UInt32} {done : List Segment}
    (holds : Holds array n done) (room : done.length < slots) (small : slots ≤ 256)
    (entry : Entry) :
    ∃ array', store array n entry = some array' ∧
      Holds array' (n + 1) (done ++ [entry.segment]) := by
  have below : n.toNat < slots := holds.length ▸ room
  have next := toNat_succ (i := n) (by omega)
  refine ⟨array.set n.toNat entry, by simp [store, below], by omega, ?_⟩
  rw [next, segments, Vector.toList_set, List.take_succ_eq_append_getElem (by simpa using below),
    List.map_append, List.take_set_of_le le_rfl]
  simp only [List.getElem_set_self, List.map_cons, List.map_nil]
  rw [← holds.behind, segments]

/-! ## The loops -/

section Loops

variable {hdr : Header maxEntries} {out : Vector Entry slots} {done rest : List Segment}
  {n i : UInt32}

theorem number_le (hdr : Header maxEntries) : hdr.number.toNat ≤ 256 := by
  have := hdr.number.toNat_lt
  omega

theorem below_iff : i < hdr.number.toUInt32 ↔ i.toNat < hdr.number.toNat := by
  rw [UInt32.lt_iff_toNat_lt, UInt8.toNat_toUInt32]

theorem skip_spec (newOff : UInt32) (small : slots ≤ 256) (holds : Holds out n done)
    (left : Left hdr.entries hdr.number.toNat i rest)
    (bounded : ∀ entry ∈ rest, entry.stop ≤ zoneSize) (room : done.length + rest.length ≤ slots) :
    ∃ out' n' i', skip hdr newOff out n i = some (out', n', i') ∧
      Holds out' n' (done ++ rest.takeWhile fun entry => entry.offset + entry.size < newOff.toNat) ∧
      Left hdr.entries hdr.number.toNat i'
        (rest.dropWhile fun entry => entry.offset + entry.size < newOff.toNat) := by
  induction rest generalizing out n i done with
  | nil =>
    rw [skip, dif_neg (by rw [below_iff]; exact left.not_lt)]
    exact ⟨out, n, i, rfl, by simpa using holds, by simpa using left⟩
  | cons segment rest inductionHypothesis =>
    obtain ⟨below, entry, loaded, rfl, next⟩ := left.next (number_le hdr)
    have stop := Entry.toNat_stop (bounded _ List.mem_cons_self)
    simp only [List.length_cons] at room
    rw [skip, dif_pos (below_iff.mpr below), loaded]
    simp only
    by_cases before : entry.segment.offset + entry.segment.size < newOff.toNat
    · obtain ⟨out', stored, pushed⟩ := holds.push (by omega) small entry
      rw [if_pos (by rw [UInt32.lt_iff_toNat_lt, stop]; exact before), stored]
      obtain ⟨out'', n', i', skipped, holds', left'⟩ := inductionHypothesis pushed next
        (fun other member => bounded other (List.mem_cons_of_mem _ member))
        (by simp only [List.length_append, List.length_cons, List.length_nil]; omega)
      refine ⟨out'', n', i', skipped, ?_, ?_⟩
      · rw [List.takeWhile_cons, if_pos (by simpa using before)]
        simpa using holds'
      · rw [List.dropWhile_cons, if_pos (by simpa using before)]
        exact left'
    · rw [if_neg (by rw [UInt32.lt_iff_toNat_lt, stop]; exact before)]
      refine ⟨out, n, i, rfl, ?_, ?_⟩
      · rw [List.takeWhile_cons, if_neg (by simpa using before)]
        simpa using holds
      · rw [List.dropWhile_cons, if_neg (by simpa using before)]
        exact left

theorem absorb_spec (newOff newEnd : UInt32) (left : Left hdr.entries hdr.number.toNat i rest)
    (bounded : ∀ entry ∈ rest, entry.stop ≤ zoneSize) :
    ∃ newOff' newEnd' i', absorb hdr newOff newEnd i = some (newOff', newEnd', i') ∧
      newOff'.toNat = (NoxDB.absorb rest newOff.toNat newEnd.toNat).1 ∧
      newEnd'.toNat = (NoxDB.absorb rest newOff.toNat newEnd.toNat).2.1 ∧
      Left hdr.entries hdr.number.toNat i' (NoxDB.absorb rest newOff.toNat newEnd.toNat).2.2 := by
  induction rest generalizing newOff newEnd i with
  | nil =>
    rw [absorb, dif_neg (by rw [below_iff]; exact left.not_lt)]
    exact ⟨newOff, newEnd, i, rfl, rfl, rfl, left⟩
  | cons segment rest inductionHypothesis =>
    obtain ⟨below, entry, loaded, rfl, next⟩ := left.next (number_le hdr)
    have stop := Entry.toNat_stop (bounded _ List.mem_cons_self)
    rw [absorb, dif_pos (below_iff.mpr below), loaded, NoxDB.absorb]
    simp only
    by_cases touches : entry.segment.offset ≤ newEnd.toNat
    · rw [if_pos (UInt32.le_iff_toNat_le.mpr touches), if_pos touches]
      obtain ⟨newOff', newEnd', i', absorbed, low, high, left'⟩ := inductionHypothesis
        (if entry.offset < newOff then entry.offset else newOff)
        (if newEnd < entry.offset + entry.size then entry.offset + entry.size else newEnd)
        next (fun other member => bounded other (List.mem_cons_of_mem _ member))
      refine ⟨newOff', newEnd', i', absorbed, ?_⟩
      simp only [apply_ite UInt32.toNat, UInt32.lt_iff_toNat_lt, stop] at low high left'
      exact ⟨low, high, left'⟩
    · rw [if_neg (by rw [UInt32.le_iff_toNat_le]; exact touches), if_neg touches]
      exact ⟨newOff, newEnd, i, rfl, rfl, rfl, left⟩

theorem copyRest_spec (bound : maxEntries ≤ 255) (small : slots = maxEntries + 1)
    (holds : Holds out n done) (left : Left hdr.entries hdr.number.toNat i rest) :
    ∃ result, copyRest hdr out n i = some result ∧
      match NoxDB.copyRest maxEntries rest done with
      | none => result = none
      | some list => ∃ out' n', result = some (out', n') ∧ Holds out' n' list := by
  induction rest generalizing out n i done with
  | nil =>
    rw [copyRest, dif_neg (by rw [below_iff]; exact left.not_lt)]
    exact ⟨_, rfl, out, n, rfl, holds⟩
  | cons segment rest inductionHypothesis =>
    obtain ⟨below, entry, loaded, rfl, next⟩ := left.next (number_le hdr)
    have guard : maxWord maxEntries + 1 ≤ n ↔ maxEntries + 1 ≤ done.length := by
      rw [UInt32.le_iff_toNat_le, toNat_maxWord_succ bound, holds.length]
    rw [copyRest, dif_pos (below_iff.mpr below), NoxDB.copyRest]
    by_cases full : maxEntries + 1 ≤ done.length
    · rw [if_pos (guard.mpr full), if_pos full]
      exact ⟨none, rfl, rfl⟩
    · obtain ⟨out', stored, pushed⟩ := holds.push (by omega) (by omega) entry
      rw [if_neg (fun late => full (guard.mp late)), if_neg full, loaded]
      simp only [stored]
      exact inductionHypothesis pushed next

theorem commit_spec {entries : Vector Entry maxEntries} {sum k : UInt32}
    (bound : maxEntries ≤ 255) (fits : n.toNat ≤ maxEntries) (left : Left out n.toNat k rest)
    (holds : Holds entries k done) (added : sum.toNat = total done)
    (small : total done + total rest ≤ zoneSize) :
    ∃ entries' sum', commit out n entries sum k = some (entries', sum') ∧
      segments entries' n.toNat = done ++ rest ∧ sum'.toNat = total (done ++ rest) := by
  induction rest generalizing entries sum k done with
  | nil =>
    have last : k.toNat = n.toNat := le_antisymm left.index (not_lt.mp left.not_lt)
    rw [commit, dif_neg (by rw [UInt32.lt_iff_toNat_lt]; exact left.not_lt)]
    refine ⟨entries, sum, rfl, ?_, by simpa using added⟩
    rw [← last, holds.behind, List.append_nil]
  | cons segment rest inductionHypothesis =>
    obtain ⟨below, entry, loaded, rfl, next⟩ := left.next (by omega)
    have room : done.length < maxEntries := by rw [holds.length]; omega
    obtain ⟨entries', stored, pushed⟩ := holds.push room (by omega) entry
    have size : entry.segment.size = entry.size.toNat := rfl
    simp only [total_cons] at small
    have grown : (sum + entry.size).toNat = total (done ++ [entry.segment]) := by
      rw [toNat_add_of_lt (by simp only [zoneSize] at small; omega), added, total_append,
        total_cons, total_nil, size, Nat.add_zero]
    rw [commit, dif_pos (by rw [UInt32.lt_iff_toNat_lt]; exact below), loaded]
    simp only [stored]
    obtain ⟨entries'', sum', committed, held, counted⟩ := inductionHypothesis next pushed grown
      (by rw [total_append, total_cons, total_nil]; omega)
    refine ⟨entries'', sum', committed, ?_, ?_⟩
    · simpa using held
    · simpa using counted

end Loops

/-! ## `coalesce_insert` and `scrap_page_merge` -/

section Merge

variable {hdr : Header maxEntries} {off len : UInt32}

theorem total_insertSegment_le {entries : List ScrapEntry} {off len : Nat}
    (separated : Separated entries) (bounded : ∀ entry ∈ entries, entry.stop ≤ zoneSize)
    (positive : 0 < len) (room : off + len ≤ zoneSize) :
    total (insertSegment entries off len) ≤ zoneSize := by
  have inserted : Separated (insertSegment entries off len) :=
    insertSegment_separated separated positive
  have inside := insertSegment_bounded separated bounded room
  generalize insertSegment entries off len = list at inserted inside
  cases list with
  | nil => exact Nat.zero_le _
  | cons first others =>
    have := inserted.total_le inside
    omega

/-- The sweep on the laid-out header computes the sweep on lists, inside its arrays. -/
theorem coalesceInsert_spec (bound : maxEntries ≤ 255) (slotted : hdr.number.toNat ≤ maxEntries)
    (wellFormed : hdr.abs.WellFormed maxEntries) (positive : 0 < len.toNat)
    (room : off.toNat + len.toNat ≤ zoneSize) (scratch : Vector Entry (maxEntries + 1)) :
    ∃ status hdr', coalesceInsert scratch hdr off len = some (status, hdr') ∧
      (status, hdr'.abs) = NoxDB.coalesceInsert maxEntries hdr.abs off.toNat len.toNat ∧
      hdr'.number.toNat ≤ maxEntries ∧ (status = .overflow → hdr' = hdr) := by
  have entries : hdr.abs.entries = segments hdr.entries hdr.number.toNat := rfl
  have bounded := wellFormed.bounded
  rw [entries] at bounded
  have count := length_segments hdr.entries slotted
  -- First loop: what ends before the new segment is copied to the scratch array.
  obtain ⟨out, n, i, skipped, holds, left⟩ := skip_spec off (by omega)
    (Holds.empty scratch) (Left.start slotted) bounded (by simp only [List.length_nil]; omega)
  have sum : (off + len).toNat = off.toNat + len.toNat :=
    toNat_add_of_lt (by simp only [zoneSize] at room; omega)
  -- Second loop: what touches it grows it.
  obtain ⟨newOff, newEnd, i, absorbed, low, high, left⟩ := absorb_spec off (off + len) left
    fun entry member => bounded entry (List.dropWhile_subset _ member)
  rw [sum] at low high left
  have order : newOff.toNat ≤ newEnd.toNat := by
    have start := Nat.le_add_right off.toNat len.toNat
    rw [low, high]
    exact (absorb_bounds _ start).1.trans (start.trans (absorb_bounds _ start).2)
  have size : (newEnd - newOff).toNat = newEnd.toNat - newOff.toNat :=
    UInt32.toNat_sub_of_le _ _ (UInt32.le_iff_toNat_le.mpr order)
  have fits := total_insertSegment_le wellFormed.separated wellFormed.bounded positive room
  rw [coalesceInsert, NoxDB.coalesceInsert, skipped]
  simp only [Option.bind_eq_bind, Option.bind_some, absorbed, entries, List.nil_append] at *
  rw [insertSegment] at fits
  dsimp only at fits ⊢
  -- The list version makes the same three parts; from here on only their lengths matter.
  generalize List.takeWhile _ _ = before at *
  generalize NoxDB.absorb _ off.toNat (off.toNat + len.toNat) = grown at *
  obtain ⟨low', high', rest⟩ := grown
  dsimp only at *
  subst low high
  -- The 32-bit comparison is the one of numbers, because the words are small.
  have guard : maxWord maxEntries + 1 ≤ n ↔ maxEntries + 1 ≤ before.length := by
    rw [UInt32.le_iff_toNat_le, toNat_maxWord_succ bound, holds.length]
  by_cases full : maxEntries + 1 ≤ before.length
  · rw [if_pos (guard.mpr full), if_pos full]
    exact ⟨.overflow, hdr, rfl, rfl, slotted, fun _ => rfl⟩
  obtain ⟨out', stored, pushed⟩ := holds.push (by omega) (by omega) ⟨newOff, newEnd - newOff⟩
  have merged : (Entry.mk newOff (newEnd - newOff)).segment =
      ⟨newOff.toNat, newEnd.toNat - newOff.toNat⟩ := by
    rw [Entry.segment, size]
  rw [merged] at pushed
  obtain ⟨result, copied, outcome⟩ := copyRest_spec bound rfl pushed left
  rw [if_neg (fun late => full (guard.mp late)), if_neg full]
  simp only [stored, Option.bind_some, copied]
  cases listed : NoxDB.copyRest maxEntries rest
      (before ++ [⟨newOff.toNat, newEnd.toNat - newOff.toNat⟩]) with
  | none =>
    rw [listed] at outcome
    obtain rfl := outcome
    exact ⟨.overflow, hdr, rfl, rfl, slotted, fun _ => rfl⟩
  | some list =>
    rw [listed] at outcome
    obtain ⟨final, filled, rfl, built⟩ := outcome
    -- The test before the commit is the one the list version makes at its end.
    have last : maxWord maxEntries < filled ↔ maxEntries < list.length := by
      rw [UInt32.lt_iff_toNat_lt, toNat_maxWord bound, built.length]
    simp only
    by_cases many : maxEntries < list.length
    · rw [if_pos (last.mpr many), if_pos many]
      exact ⟨.overflow, hdr, rfl, rfl, slotted, fun _ => rfl⟩
    · have length := built.length
      have whole : list = before ++ ⟨newOff.toNat, newEnd.toNat - newOff.toNat⟩ :: rest := by
        simpa using copyRest_some listed
      -- Last loop: the scratch array goes back into the header.
      have walk : Left final filled.toNat 0 list := built.behind ▸ Left.start built.within
      obtain ⟨entries', sum', committed, held, counted⟩ := commit_spec bound (by omega) walk
        (Holds.empty hdr.entries) (show (0 : UInt32).toNat = total [] from rfl)
        (by rw [total_nil, whole]; omega)
      have byte : filled.toUInt8.toNat = filled.toNat := by
        rw [UInt32.toNat_toUInt8, Nat.mod_eq_of_lt (by omega)]
      rw [if_neg (fun late => many (last.mp late)), if_neg many, committed]
      refine ⟨.ok, _, rfl, ?_, by simp only [byte]; omega, by simp⟩
      rw [List.nil_append] at held counted
      simp only [Header.abs, byte, held, counted]

variable {page : Page maxEntries α}

theorem copyIn_eq (data src : Nat → α) (room : off.toNat + len.toNat ≤ zoneSize) :
    copyIn data off len src = some (copyAt data off.toNat len.toNat src) := by
  rw [copyIn, if_pos room]

/-- `scrap_page_merge` stays inside its arrays and does to the page what it does to its list. -/
theorem scrapPageMerge_spec (bound : maxEntries ≤ 255) (valid : page.Valid)
    (positive : 0 < len.toNat) (room : off.toNat + len.toNat ≤ zoneSize) (buf : Nat → α)
    (scratch : Vector Entry (maxEntries + 1)) :
    ∃ status merged, scrapPageMerge scratch page buf off len = some (status, merged) ∧
      NoxDB.scrapPageMerge maxEntries page.abs buf off.toNat len.toNat = (status, merged.abs) ∧
      merged.Valid ∧ (status = .overflow → merged = page) := by
  obtain ⟨status, probe, inserted, listed, slotted, kept⟩ :=
    coalesceInsert_spec bound valid.slotted valid.wellFormed positive room scratch
  have onList : NoxDB.coalesceInsert maxEntries page.abs.hdr off.toNat len.toNat =
      (status, probe.abs) := listed.symm
  cases status with
  | overflow =>
    refine ⟨.overflow, page, ?_, ?_, valid, fun _ => rfl⟩
    · simp [scrapPageMerge, inserted]
    · simp [NoxDB.scrapPageMerge, onList]
  | ok =>
    have merged : NoxDB.scrapPageMerge maxEntries page.abs buf off.toNat len.toNat =
        (.ok, Page.abs { page with
          data := copyAt page.data off.toNat len.toNat buf, hdr := probe }) := by
      rw [NoxDB.scrapPageMerge, onList]
      rfl
    refine ⟨.ok, _, ?_, merged, ⟨slotted, ?_⟩, by simp⟩
    · simp [scrapPageMerge, inserted, copyIn_eq _ _ room]
    · exact scrapPageMerge_wellFormed valid.wellFormed positive room merged

end Merge

/-! ## `scrap_page_hole_ranges` and `scrap_page_apply_holes` -/

section Holes

variable {hdr : Header maxEntries} {out : Vector Entry slots} {done rest : List Segment}
  {n k : UInt32}

theorem holeRangesFrom_spec (max cursor : UInt32) (small : slots ≤ 256) (holds : Holds out n done)
    (left : Left hdr.entries hdr.number.toNat k rest)
    (bounded : ∀ entry ∈ rest, entry.stop ≤ zoneSize) (room : done.length + rest.length < slots) :
    ∃ out' n', holeRangesFrom hdr max out n cursor k = some (out', n') ∧
      Holds out' n'
        (done ++ NoxDB.holeRangesFrom max.toNat rest cursor.toNat done.length) := by
  have zone : zoneWord.toNat = zoneSize := rfl
  -- Induction on the entries that are left, with what the walk has written so far.
  induction rest generalizing out n cursor k done with
  | nil =>
    have guard : (cursor < zoneWord ∧ n < max) ↔
        cursor.toNat < zoneSize ∧ done.length < max.toNat := by
      rw [UInt32.lt_iff_toNat_lt, UInt32.lt_iff_toNat_lt, holds.length, zone]
    rw [holeRangesFrom, dif_neg (by rw [below_iff]; exact left.not_lt), NoxDB.holeRangesFrom]
    simp only [guard]
    by_cases open' : cursor.toNat < zoneSize ∧ done.length < max.toNat
    · rw [if_pos open', if_pos open']
      obtain ⟨out', stored, pushed⟩ := holds.push (by simpa using room) small
        ⟨cursor, zoneWord - cursor⟩
      have size : (zoneWord - cursor).toNat = zoneSize - cursor.toNat :=
        UInt32.toNat_sub_of_le _ _ (UInt32.le_iff_toNat_le.mpr (by rw [zone]; omega))
      simp only [stored]
      rw [Entry.segment, size] at pushed
      exact ⟨out', n + 1, rfl, pushed⟩
    · rw [if_neg open', if_neg open', List.append_nil]
      exact ⟨out, n, rfl, holds⟩
  | cons segment rest inductionHypothesis =>
    obtain ⟨below, entry, loaded, rfl, next⟩ := left.next (number_le hdr)
    have stop := Entry.toNat_stop (bounded _ List.mem_cons_self)
    have others : ∀ other ∈ rest, other.stop ≤ zoneSize := fun other member =>
      bounded other (List.mem_cons_of_mem _ member)
    simp only [List.length_cons] at room
    have gap : cursor < entry.offset ↔ cursor.toNat < entry.segment.offset :=
      UInt32.lt_iff_toNat_lt
    have late : max ≤ n ↔ max.toNat ≤ done.length := by
      rw [UInt32.le_iff_toNat_le, holds.length]
    rw [holeRangesFrom, dif_pos (below_iff.mpr below), loaded, NoxDB.holeRangesFrom]
    simp only [gap, late]
    by_cases hole : cursor.toNat < entry.segment.offset
    · rw [if_pos hole, if_pos hole]
      -- The C code returns here; the list version stops with what it has.
      by_cases truncated : max.toNat ≤ done.length
      · rw [if_pos truncated, if_pos truncated, List.append_nil]
        exact ⟨out, n, rfl, holds⟩
      · obtain ⟨out', stored, pushed⟩ := holds.push (by omega) small
          ⟨cursor, entry.offset - cursor⟩
        have size : (entry.offset - cursor).toNat = entry.segment.offset - cursor.toNat :=
          UInt32.toNat_sub_of_le _ _ (UInt32.le_iff_toNat_le.mpr hole.le)
        rw [Entry.segment, size] at pushed
        rw [if_neg truncated, if_neg truncated]
        simp only [stored]
        obtain ⟨out'', n', walked, holds'⟩ := inductionHypothesis (entry.offset + entry.size)
          pushed next others (by simp only [List.length_append, List.length_singleton]; omega)
        refine ⟨out'', n', walked, ?_⟩
        rw [stop, Segment.stop] at holds'
        simpa using holds'
    · rw [if_neg hole, if_neg hole]
      obtain ⟨out', n', walked, holds'⟩ := inductionHypothesis (entry.offset + entry.size)
        holds next others (by omega)
      rw [stop, Segment.stop] at holds'
      exact ⟨out', n', walked, holds'⟩

theorem applyFrom_spec {holes : Vector Entry slots} {nh i : UInt32} (small : nh.toNat ≤ 256)
    (left : Left holes nh.toNat i rest) (bounded : ∀ hole ∈ rest, hole.stop ≤ zoneSize)
    (scratch data : Nat → α) :
    applyFrom holes nh scratch data i = some (rest.foldl
      (fun data hole => copyAt data hole.offset hole.size fun j => scratch (hole.offset + j))
      data) := by
  induction rest generalizing i data with
  | nil =>
    rw [applyFrom, dif_neg (by rw [UInt32.lt_iff_toNat_lt]; exact left.not_lt)]
    rfl
  | cons segment rest inductionHypothesis =>
    obtain ⟨below, hole, loaded, rfl, next⟩ := left.next small
    have inside : hole.offset.toNat + hole.size.toNat ≤ zoneSize := bounded _ List.mem_cons_self
    rw [applyFrom, dif_pos (by rw [UInt32.lt_iff_toNat_lt]; exact below), loaded]
    simp only [copyIn_eq _ _ inside]
    rw [inductionHypothesis next fun other member => bounded other (List.mem_cons_of_mem _ member)]
    rfl

variable {page : Page maxEntries α}

/-- The hole list of a valid page fits its array, and is the list's hole list. -/
theorem scrapPageHoleRanges_spec (bound : maxEntries ≤ 255) (valid : page.Valid)
    (holes : Vector Entry (maxEntries + 1)) :
    ∃ out nh, scrapPageHoleRanges page holes (maxWord maxEntries + 1) = some (out, nh) ∧
      Holds out nh (NoxDB.scrapPageHoleRanges page.abs (maxEntries + 1)) := by
  have count := length_segments page.hdr.entries valid.slotted
  have slotted := valid.slotted
  obtain ⟨out, nh, walked, holds⟩ := holeRangesFrom_spec (maxWord maxEntries + 1) 0 (by omega)
    (Holds.empty holes) (Left.start valid.slotted) valid.wellFormed.bounded
    (by simp only [List.length_nil]; omega)
  rw [toNat_maxWord_succ bound] at holds
  exact ⟨out, nh, walked, holds⟩

/-- `scrap_page_apply_holes` stays inside its arrays and does to the page what it does to its
list. -/
theorem scrapPageApplyHoles_spec (enough : 1 ≤ maxEntries) (bound : maxEntries ≤ 255)
    (valid : page.Valid) (scratch : Nat → α) (holes : Vector Entry (maxEntries + 1)) :
    ∃ filled, scrapPageApplyHoles holes page scratch = some filled ∧
      filled.abs = NoxDB.scrapPageApplyHoles maxEntries page.abs scratch ∧ filled.Valid := by
  obtain ⟨out, nh, walked, holds⟩ := scrapPageHoleRanges_spec bound valid holes
  have within := holds.within
  have walk : Left out nh.toNat 0 (NoxDB.scrapPageHoleRanges page.abs (maxEntries + 1)) :=
    holds.behind ▸ Left.start holds.within
  have copied := applyFrom_spec (by omega) walk (scrapPageHoleRanges_bounded valid.wellFormed) scratch page.data
  obtain ⟨entries, stored, pushed⟩ := (Holds.empty page.hdr.entries).push enough (by omega)
    ⟨0, zoneWord⟩
  have single : segments entries 1 = [⟨0, zoneSize⟩] := pushed.behind
  have onList : Page.abs { page with
      data := (NoxDB.scrapPageHoleRanges page.abs (maxEntries + 1)).foldl
        (fun data hole => copyAt data hole.offset hole.size fun j => scratch (hole.offset + j))
        page.data
      hdr := { page.hdr with entries, number := 1, counter := zoneWord } } =
      NoxDB.scrapPageApplyHoles maxEntries page.abs scratch := by
    rw [NoxDB.scrapPageApplyHoles, Page.abs, Header.abs]
    simp only [show (1 : UInt8).toNat = 1 from rfl, single]
    rfl
  refine ⟨_, ?_, onList, ⟨enough, ?_⟩⟩
  · simp [scrapPageApplyHoles, walked, copied, stored]
  · rw [onList]
    exact scrapPageApplyHoles_wellFormed scratch enough

end Holes

end NoxDB.Layout

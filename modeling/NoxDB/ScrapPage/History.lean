import NoxDB.ScrapPage.Bounds

/-! # A page along its history

A page is built by any sequence of merges and hole fills.  The record of the calls, each with
the status it returned, determines what the page must be: `Tracks` says that the entries are
the canonical presentation of the accepted ranges and that every byte is that of the last
accepted merge for it.  One operation preserves it (`Tracks.step`), hence every sequence does
(`tracks_of_run`).  Since the canonical presentation is unique, the order of the merges leaves no
trace in the header.
-/

namespace NoxDB

open Library.Segments

variable {maxEntries : Nat} {α : Type}

/-- The arguments of a `scrap_page_merge`, with what its stack array holds on entry. -/
structure MergeCall (maxEntries : Nat) (α : Type) where
  buf : Nat → α
  intra : UInt32
  len : UInt32
  stack : Vector Layout.Entry (maxEntries + 1)

namespace MergeCall

/-- The merge writes byte `x` of the zone. -/
def Covers (call : MergeCall maxEntries α) (x : Nat) : Prop :=
  call.intra.toNat ≤ x ∧ x < call.intra.toNat + call.len.toNat

instance (call : MergeCall maxEntries α) (x : Nat) : Decidable (call.Covers x) :=
  inferInstanceAs (Decidable (_ ∧ _))

/-- What it writes there. -/
def value (call : MergeCall maxEntries α) (x : Nat) : α := call.buf (x - call.intra.toNat)

/-- A nonempty range inside the zone. -/
def Admissible (call : MergeCall maxEntries α) : Prop :=
  0 < call.len.toNat ∧ call.intra.toNat + call.len.toNat ≤ zoneSize

instance (call : MergeCall maxEntries α) : Decidable call.Admissible :=
  inferInstanceAs (Decidable (_ ∧ _))

end MergeCall

/-- The operations that change a page's header and zone. -/
inductive PageOp (maxEntries : Nat) (α : Type) where
  | merge (call : MergeCall maxEntries α)
  | applyHoles (scratch : Nat → α) (stack : Vector Layout.Entry (maxEntries + 1))

namespace PageOp

def Admissible : PageOp maxEntries α → Prop
  | .merge call => call.Admissible
  | .applyHoles _ _ => True

/-- Carry out an operation; a hole fill has no status and counts as accepted. -/
def run (page : Layout.Page maxEntries α) :
    PageOp maxEntries α → Option (ScrapStatus × Layout.Page maxEntries α)
  | .merge call => Layout.scrapPageMerge call.stack page call.buf call.intra call.len
  | .applyHoles scratch stack =>
    (Layout.scrapPageApplyHoles stack page scratch).map fun filled => (.ok, filled)

end PageOp

/-- The operations carried out so far with their status, latest first. -/
abbrev History (maxEntries : Nat) (α : Type) := List (PageOp maxEntries α × ScrapStatus)

/-- Carry out the operations in order. -/
def runOps : List (PageOp maxEntries α) → History maxEntries α → Layout.Page maxEntries α →
    Option (History maxEntries α × Layout.Page maxEntries α)
  | [], history, page => some (history, page)
  | op :: ops, history, page =>
    match op.run page with
    | none => none
    | some (status, page) => runOps ops ((op, status) :: history) page

namespace History

/-- Some accepted merge wrote byte `x`. -/
def Merged (history : History maxEntries α) (x : Nat) : Prop :=
  ∃ call, (PageOp.merge call, .ok) ∈ history ∧ call.Covers x

/-- The holes of the page have been filled. -/
def Filled (history : History maxEntries α) : Prop :=
  ∃ scratch stack status, (PageOp.applyHoles scratch stack, status) ∈ history

/-- The byte of the last accepted merge that wrote `x`. -/
def lastMerged (history : History maxEntries α) (x : Nat) : Option α :=
  history.findSome? fun
    | (.merge call, .ok) => if call.Covers x then some (call.value x) else none
    | _ => none

section Cons

variable (call : MergeCall maxEntries α) (history : History maxEntries α) (x : Nat)

theorem merged_accepted :
    Merged ((.merge call, .ok) :: history) x ↔ call.Covers x ∨ history.Merged x := by
  constructor
  · rintro ⟨other, member, covers⟩
    rcases List.mem_cons.mp member with same | older
    · cases same
      exact .inl covers
    · exact .inr ⟨other, older, covers⟩
  · rintro (covers | ⟨other, older, covers⟩)
    · exact ⟨call, List.mem_cons_self, covers⟩
    · exact ⟨other, List.mem_cons_of_mem _ older, covers⟩

theorem merged_rejected : Merged ((.merge call, .overflow) :: history) x ↔ history.Merged x := by
  simp [Merged]

theorem filled_merge (status : ScrapStatus) :
    Filled ((.merge call, status) :: history) ↔ history.Filled := by
  simp [Filled]

theorem lastMerged_accepted : lastMerged ((.merge call, .ok) :: history) x =
    if call.Covers x then some (call.value x) else history.lastMerged x := by
  rw [lastMerged, List.findSome?_cons]
  by_cases covers : call.Covers x
  · simp [covers]
  · simp [covers, lastMerged]

theorem lastMerged_rejected :
    lastMerged ((.merge call, .overflow) :: history) x = history.lastMerged x := by
  rw [lastMerged, List.findSome?_cons]
  rfl

variable (scratch : Nat → α) (stack : Vector Layout.Entry (maxEntries + 1))

theorem merged_applyHoles :
    Merged ((.applyHoles scratch stack, .ok) :: history) x ↔ history.Merged x := by
  simp [Merged]

theorem filled_applyHoles : Filled ((.applyHoles scratch stack, .ok) :: history) :=
  ⟨scratch, stack, .ok, List.mem_cons_self⟩

theorem lastMerged_applyHoles :
    lastMerged ((.applyHoles scratch stack, .ok) :: history) x = history.lastMerged x := by
  rw [lastMerged, List.findSome?_cons]
  rfl

end Cons

theorem merged_of_lastMerged {history : History maxEntries α} {x : Nat} {byte : α}
    (last : history.lastMerged x = some byte) :
    ∃ call, (PageOp.merge call, .ok) ∈ history ∧ call.Covers x ∧ byte = call.value x := by
  obtain ⟨⟨op, status⟩, member, found⟩ := List.exists_of_findSome?_eq_some last
  cases op with
  | applyHoles scratch stack => simp at found
  | merge call =>
    cases status with
    | overflow => simp at found
    | ok =>
      simp only [Option.ite_none_right_eq_some, Option.some.injEq] at found
      exact ⟨call, member, found.1, found.2.symm⟩

theorem lastMerged_of_merged {history : History maxEntries α} {x : Nat}
    (merged : history.Merged x) : ∃ byte, history.lastMerged x = some byte := by
  obtain ⟨call, member, covers⟩ := merged
  rw [← Option.isSome_iff_exists, lastMerged, List.findSome?_isSome_iff]
  exact ⟨_, member, by simp [covers]⟩

end History

/-! ## One operation -/

section Effect

variable {page : Layout.Page maxEntries α}

/-- The fields that no merge and no hole fill writes. -/
def SameIdentity (page next : Layout.Page maxEntries α) : Prop :=
  next.hdr.ssdId = page.hdr.ssdId ∧ next.hdr.tag = page.hdr.tag ∧ next.base = page.base

theorem sameIdentity_of_abs {next : Layout.Page maxEntries α}
    (ssdId : next.abs.hdr.ssdId = page.abs.hdr.ssdId) (tag : next.abs.hdr.tag = page.abs.hdr.tag)
    (base : next.abs.base = page.abs.base) : SameIdentity page next :=
  ⟨UInt16.toNat_inj.mp ssdId, tag, base⟩

/-- A merge changes nothing, or adds its range and its bytes. -/
theorem merge_effect (bound : maxEntries ≤ 255) (valid : page.Valid)
    {call : MergeCall maxEntries α} (admissible : call.Admissible) :
    ∃ status next, (PageOp.merge call).run page = some (status, next) ∧ next.Valid ∧
      SameIdentity page next ∧
      (status = .overflow ∧ next = page ∨
        status = .ok ∧ (∀ x, next.abs.Covered x ↔ page.abs.Covered x ∨ call.Covers x) ∧
          ∀ x, next.data x = if call.Covers x then call.value x else page.data x) := by
  obtain ⟨status, next, computed, onList, nextValid, kept⟩ := Layout.scrapPageMerge_spec bound valid
    admissible.1 admissible.2 call.buf call.stack
  cases status with
  | overflow =>
    obtain rfl := kept rfl
    exact ⟨.overflow, next, computed, nextValid, ⟨rfl, rfl, rfl⟩, .inl ⟨rfl, rfl⟩⟩
  | ok =>
    have whole := (scrapPageMerge_ok onList).2
    refine ⟨.ok, next, computed, nextValid, ?_, .inr ⟨rfl, fun x => ?_, fun x => ?_⟩⟩
    · exact sameIdentity_of_abs (by rw [whole]) (by rw [whole]) (by rw [whole])
    · exact scrapPageMerge_covered valid.wellFormed admissible.1 onList
    · exact congrFun (congrArg ScrapPage.data whole) x

/-- A hole fill covers the zone and keeps what was covered. -/
theorem applyHoles_effect (enough : 1 ≤ maxEntries) (bound : maxEntries ≤ 255) (valid : page.Valid)
    (scratch : Nat → α) (stack : Vector Layout.Entry (maxEntries + 1)) :
    ∃ next, (PageOp.applyHoles scratch stack).run page = some (.ok, next) ∧ next.Valid ∧
      SameIdentity page next ∧ (∀ x, next.abs.Covered x ↔ x < zoneSize) ∧
      ∀ x, page.abs.Covered x → next.data x = page.data x := by
  obtain ⟨next, computed, onList, nextValid⟩ :=
    Layout.scrapPageApplyHoles_spec enough bound valid scratch stack
  refine ⟨next, by simp [PageOp.run, computed], nextValid, ?_, fun x => ?_, fun x covered => ?_⟩
  · exact sameIdentity_of_abs (by rw [onList]; rfl) (by rw [onList]; rfl) (by rw [onList]; rfl)
  · rw [onList]
    exact scrapPageApplyHoles_covered scratch x
  · have data : next.data = next.abs.data := rfl
    rw [data, onList, scrapPageApplyHoles_data scratch valid.wellFormed
      (covered.lt valid.wellFormed), if_pos covered]
    rfl

end Effect

/-- The page is what `start` and its history since say: canonical entries, the bytes covered at the
start and the accepted ranges (the whole zone once the holes are filled), and at each byte what
the last accepted merge wrote or else what was covered at the start. -/
structure Tracks (start : Layout.Page maxEntries α) (history : History maxEntries α)
    (page : Layout.Page maxEntries α) : Prop where
  valid : page.Valid
  coverage : ∀ x, page.abs.Covered x ↔
    start.abs.Covered x ∨ history.Merged x ∨ history.Filled ∧ x < zoneSize
  last : ∀ x byte, history.lastMerged x = some byte → page.data x = byte
  kept : ∀ x, history.lastMerged x = none → start.abs.Covered x → page.data x = start.data x
  identity : SameIdentity start page

theorem Tracks.refl {start : Layout.Page maxEntries α} (valid : start.Valid) :
    Tracks start [] start where
  valid := valid
  coverage := by simp [History.Merged, History.Filled]
  last := by simp [History.lastMerged]
  kept := fun _ _ _ => rfl
  identity := ⟨rfl, rfl, rfl⟩

theorem fresh_not_covered (base : Nat) (ssdId : UInt16) (zone : Nat → α) (x : Nat) :
    ¬ (Layout.scrapPageAlloc base ssdId zone : Layout.Page maxEntries α).abs.Covered x := by
  rw [Layout.abs_alloc]
  simp [ScrapPage.Covered, scrapPageAlloc]

theorem SameIdentity.trans {first second third : Layout.Page maxEntries α}
    (before : SameIdentity first second) (after : SameIdentity second third) :
    SameIdentity first third :=
  ⟨after.1.trans before.1, after.2.1.trans before.2.1, after.2.2.trans before.2.2⟩

/-- One operation stays inside its arrays and keeps the page what its history says; it never
shrinks the coverage, and a merge leaves the bytes outside its range alone. -/
theorem Tracks.step {start page : Layout.Page maxEntries α} {history : History maxEntries α}
    (tracks : Tracks start history page) (enough : 1 ≤ maxEntries) (bound : maxEntries ≤ 255)
    {op : PageOp maxEntries α} (admissible : op.Admissible) :
    ∃ status next, op.run page = some (status, next) ∧
      Tracks start ((op, status) :: history) next ∧
      (∀ x, page.abs.Covered x → next.abs.Covered x) ∧
      ∀ call, op = .merge call → ∀ x, ¬ call.Covers x → next.data x = page.data x := by
  cases op with
  | merge call =>
    obtain ⟨status, next, computed, nextValid, identity, outcome⟩ :=
      merge_effect bound tracks.valid admissible
    -- A rejected merge leaves page and history as they were.
    rcases outcome with ⟨rfl, rfl⟩ | ⟨rfl, covered, data⟩
    · refine ⟨.overflow, next, computed, ⟨nextValid, fun x => ?_, fun x byte last => ?_,
        fun x unmerged inside => ?_, tracks.identity⟩, fun x inside => inside, fun _ _ _ _ => rfl⟩
      · rw [History.merged_rejected, History.filled_merge]
        exact tracks.coverage x
      · rw [History.lastMerged_rejected] at last
        exact tracks.last x byte last
      · rw [History.lastMerged_rejected] at unmerged
        exact tracks.kept x unmerged inside
    · refine ⟨.ok, next, computed, ⟨nextValid, fun x => ?_, fun x byte last => ?_,
        fun x unmerged inside => ?_, tracks.identity.trans identity⟩,
        fun x inside => (covered x).mpr (.inl inside), ?_⟩
      · rw [covered x, tracks.coverage x, History.merged_accepted, History.filled_merge]
        tauto
      · rw [History.lastMerged_accepted] at last
        rw [data x]
        split at last
        · next inside => rw [if_pos inside, Option.some.inj last]
        · next outside => rw [if_neg outside, tracks.last x byte last]
      · rw [History.lastMerged_accepted] at unmerged
        rw [data x]
        split at unmerged
        · exact absurd unmerged (by simp)
        · next outside => rw [if_neg outside, tracks.kept x unmerged inside]
      · rintro _ ⟨rfl⟩ x outside
        rw [data x, if_neg outside]
  | applyHoles scratch stack =>
    obtain ⟨next, computed, nextValid, identity, covered, data⟩ :=
      applyHoles_effect enough bound tracks.valid scratch stack
    refine ⟨.ok, next, computed, ⟨nextValid, fun x => ?_, fun x byte last => ?_,
      fun x unmerged inside => ?_, tracks.identity.trans identity⟩,
      fun x inside => (covered x).mpr (inside.lt tracks.valid.wellFormed), by simp⟩
    · rw [covered x, History.merged_applyHoles]
      refine ⟨fun inside => .inr (.inr ⟨History.filled_applyHoles .., inside⟩), ?_⟩
      rintro (before | merged | ⟨-, inside⟩)
      · exact ((tracks.coverage x).mpr (.inl before)).lt tracks.valid.wellFormed
      · exact ((tracks.coverage x).mpr (.inr (.inl merged))).lt tracks.valid.wellFormed
      · exact inside
    -- A byte that was merged was covered, and the fill writes only what was not.
    · rw [History.lastMerged_applyHoles] at last
      obtain ⟨call, member, covers, -⟩ := History.merged_of_lastMerged last
      rw [data x ((tracks.coverage x).mpr (.inr (.inl ⟨call, member, covers⟩))),
        tracks.last x byte last]
    · rw [History.lastMerged_applyHoles] at unmerged
      rw [data x ((tracks.coverage x).mpr (.inl inside)), tracks.kept x unmerged inside]

/-- Any sequence of admissible operations runs through and leaves what its history says. -/
theorem tracks_of_run {start page : Layout.Page maxEntries α} {history : History maxEntries α}
    (tracks : Tracks start history page) (enough : 1 ≤ maxEntries) (bound : maxEntries ≤ 255)
    {ops : List (PageOp maxEntries α)} (admissible : ∀ op ∈ ops, op.Admissible) :
    ∃ history' page', runOps ops history page = some (history', page') ∧
      Tracks start history' page' := by
  induction ops generalizing history page with
  | nil => exact ⟨history, page, rfl, tracks⟩
  | cons op ops inductionHypothesis =>
    obtain ⟨status, next, computed, nextTracks, -, -⟩ :=
      tracks.step enough bound (admissible op List.mem_cons_self)
    rw [runOps, computed]
    exact inductionHypothesis nextTracks fun other member =>
      admissible other (List.mem_cons_of_mem _ member)

/-! ## The representation invariant -/

/-- The first `number` entries of the header. -/
def Layout.Page.entries (page : Layout.Page maxEntries α) : List Segment :=
  Layout.segments page.hdr.entries page.hdr.number.toNat

/-- What the header and the zone of a page are, given its history. -/
structure Represents (history : History maxEntries α) (page : Layout.Page maxEntries α) : Prop where
  listed : page.entries.length = page.hdr.number.toNat
  nonempty : ∀ entry ∈ page.entries, 0 < entry.size
  inside : ∀ entry ∈ page.entries, entry.stop ≤ zoneSize
  /-- Sorted, and a byte apart: neither overlapping nor adjacent. -/
  sorted : page.entries.Pairwise fun left right => left.stop < right.offset
  number_le : page.hdr.number.toNat ≤ maxEntries
  counter : page.hdr.counter.toNat = (page.entries.map Segment.size).sum
  coverage : ∀ x, Covers page.entries x ↔ history.Merged x ∨ history.Filled ∧ x < zoneSize
  last : ∀ x, history.Merged x → history.lastMerged x = some (page.data x)
  full : Layout.scrapPageIsFull page = true ↔ ∀ x < zoneSize, Covers page.entries x
  single : Layout.scrapPageIsFull page = true → page.hdr.number = 1

theorem Tracks.represents {start page : Layout.Page maxEntries α}
    {history : History maxEntries α} (tracks : Tracks start history page)
    (empty : ∀ x, ¬ start.abs.Covered x) : Represents history page := by
  have wellFormed := tracks.valid.wellFormed
  have listed := Layout.length_segments page.hdr.entries tracks.valid.slotted
  refine ⟨listed, wellFormed.separated.nonempty, wellFormed.bounded, wellFormed.separated.gaps,
    tracks.valid.slotted, wellFormed.counted, fun x => ?_, ?_, ?_, ?_⟩
  · exact (tracks.coverage x).trans (by simp [empty x])
  · intro x merged
    obtain ⟨byte, last⟩ := History.lastMerged_of_merged merged
    rw [last, tracks.last x byte last]
  · rw [Layout.scrapPageIsFull_abs]
    exact scrapPageIsFull_iff wellFormed
  · intro full
    rw [Layout.scrapPageIsFull_abs] at full
    have one : page.abs.hdr.entries = [⟨0, zoneSize⟩] :=
      (scrapPageIsFull_iff_entries wellFormed).mp full
    have count : page.hdr.number.toNat = 1 := by
      rw [← listed]
      exact congrArg List.length one
    exact UInt8.toNat_inj.mp count

/-- Every sequence of admissible operations on a fresh page runs through without an access
outside an array and leaves what its history says; whatever operation comes next, the coverage
does not shrink, and a merge touches no byte outside its range. -/
theorem representation_invariant (cfg : Config) (base : Nat) (ssdId : UInt16) (zone : Nat → α)
    (ops : List (PageOp cfg.maxEntries α)) (admissible : ∀ op ∈ ops, op.Admissible) :
    ∃ history page, runOps ops [] (Layout.scrapPageAlloc base ssdId zone) = some (history, page) ∧
      Represents history page ∧
      ∀ op : PageOp cfg.maxEntries α, op.Admissible →
        ∃ status next, op.run page = some (status, next) ∧
          (∀ x, Covers page.entries x → Covers next.entries x) ∧
          ∀ call, op = .merge call → ∀ x, ¬ call.Covers x → next.data x = page.data x := by
  obtain ⟨history, page, computed, tracks⟩ :=
    tracks_of_run (.refl (Layout.scrapPageAlloc_valid base ssdId zone)) cfg.maxEntries_pos
      cfg.maxEntries_le admissible
  refine ⟨history, page, computed, tracks.represents (fresh_not_covered base ssdId zone),
    fun op opAdmissible => ?_⟩
  obtain ⟨status, next, stepped, -, grows, untouched⟩ :=
    tracks.step cfg.maxEntries_pos cfg.maxEntries_le opAdmissible
  exact ⟨status, next, stepped, grows, untouched⟩

/-- Bytes 5 and 6, then byte 7: one entry of three bytes. -/
theorem representation_invariant_of_two :
    ∃ history page, runOps
        [.merge ⟨fun _ => 1, 5, 2, .replicate 2 ⟨0, 0⟩⟩, .merge ⟨fun _ => 2, 7, 1, .replicate 2 ⟨0, 0⟩⟩]
        [] (Layout.scrapPageAlloc 0 0 fun _ => 0 : Layout.Page Config.oneEntry.maxEntries UInt8) =
          some (history, page) ∧ Represents history page := by
  obtain ⟨history, page, computed, represents, -⟩ := representation_invariant Config.oneEntry 0 0
    (fun _ => (0 : UInt8))
    [.merge ⟨fun _ => 1, 5, 2, .replicate 2 ⟨0, 0⟩⟩, .merge ⟨fun _ => 2, 7, 1, .replicate 2 ⟨0, 0⟩⟩]
    (by simp [PageOp.Admissible, MergeCall.Admissible, zoneSize])
  exact ⟨history, page, computed, represents⟩

end NoxDB

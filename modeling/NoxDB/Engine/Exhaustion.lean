import NoxDB.Engine.Retry

/-! # Entry exhaustion

`NOX_MAX_ENTRIES` is the number of blocks in a zone, so entries of a block each cannot run out
before the page is full.  A call of a block or more can still leave less than a block in a page: at
the end of the page it starts in and at the start of the page it ends in.  With a short entry at
both ends there is room for 65 entries (`overflow_iff_exhausts`), and the page that gets the 65th is
sealed.
-/

namespace NoxDB

open Function (update)
open Library.Segments
open Library.Runs

variable {n : Nat}

/-! ## Short entries -/

/-- A segment of at least a block, or at one of the two ends of the zone. -/
def Anchored (segment : Segment) : Prop :=
  blockSize ≤ segment.size ∨ segment.offset = 0 ∨ segment.stop = zoneSize

/-- Less than a block at the start of the zone. -/
def ShortStart (segment : Segment) : Prop := segment.offset = 0 ∧ segment.size < blockSize

instance : DecidablePred ShortStart := fun _ => inferInstanceAs (Decidable (_ ∧ _))

/-- Less than a block at the end of the zone. -/
def ShortEnd (segment : Segment) : Prop := segment.stop = zoneSize ∧ segment.size < blockSize

instance : DecidablePred ShortEnd := fun _ => inferInstanceAs (Decidable (_ ∧ _))

/-- More segments than the zone has blocks leave short ones at both ends. -/
theorem short_ends_of_many {segments : List Segment} (separated : Separated segments)
    (bounded : ∀ segment ∈ segments, segment.stop ≤ zoneSize)
    (anchored : ∀ segment ∈ segments, Anchored segment) (many : 64 < segments.length) :
    (∃ segment ∈ segments, ShortStart segment) ∧ ∃ segment ∈ segments, ShortEnd segment := by
  have inside : ∀ segment ∈ segments, segment.stop ≤ 64 * blockSize := fun segment member =>
    (bounded segment member).trans (by decide)
  constructor
  -- Without a short segment at the start only one at the end can be less than a block.
  · by_contra none_
    refine absurd (separated.length_le_of_large (by decide) inside ShortEnd ?_ ?_)
      (not_le.mpr many)
    · rintro left right ⟨stop, -⟩ ⟨stopToo, -⟩
      simp only [Segment.stop] at *
      omega
    · intro segment member
      rcases anchored segment member with large | first | last
      · exact .inl large
      · exact .inl (not_lt.mp fun short => none_ ⟨segment, member, first, short⟩)
      · exact (le_or_gt blockSize segment.size).imp_right fun short => ⟨last, short⟩
  · by_contra none_
    refine absurd (separated.length_le_of_large (by decide) inside ShortStart ?_ ?_)
      (not_le.mpr many)
    · rintro left right - ⟨start, -⟩
      omega
    · intro segment member
      rcases anchored segment member with large | first | last
      · exact .inl large
      · exact (le_or_gt blockSize segment.size).imp_right fun short => ⟨first, short⟩
      · exact .inl (not_lt.mp fun short => none_ ⟨segment, member, last, short⟩)

/-! ## Inserting a segment -/

section Insert

variable {entries : List ScrapEntry} {off len newOff newEnd : Nat}

theorem length_absorb_le (entries : List ScrapEntry) (newOff newEnd : Nat) :
    (absorb entries newOff newEnd).2.2.length ≤ entries.length := by
  induction entries generalizing newOff newEnd with
  | nil => exact le_rfl
  | cons entry rest inductionHypothesis =>
    rw [absorb]
    split
    · exact le_trans (inductionHypothesis _ _) (Nat.le_succ _)
    · exact le_rfl

/-- Nothing is absorbed exactly when every segment lies behind the range. -/
theorem absorb_eq_iff (newOff newEnd : Nat) (separated : Separated entries) :
    (absorb entries newOff newEnd).2.2.length = entries.length ↔
      ∀ entry ∈ entries, newEnd < entry.offset := by
  cases entries with
  | nil => simp [absorb]
  | cons entry rest =>
    rw [absorb]
    split
    -- A segment that is touched goes, and those after it can only become fewer.
    · next touches =>
      have shorter := length_absorb_le rest
        (if entry.offset < newOff then entry.offset else newOff)
        (if newEnd < entry.offset + entry.size then entry.offset + entry.size else newEnd)
      refine iff_of_false ?_ fun behind => ?_
      · rw [List.length_cons]
        omega
      · exact absurd (behind entry List.mem_cons_self) (not_lt.mpr touches)
    · next behind =>
      refine iff_of_true rfl fun other member => ?_
      rcases List.mem_cons.mp member with rfl | later
      · exact not_le.mp behind
      -- Segments are sorted, so the ones after it lie behind the range too.
      · have gap := separated.head_lt later
        simp only [Segment.stop] at gap
        omega

theorem absorb_of_behind (behind : ∀ entry ∈ entries, newEnd < entry.offset) :
    absorb entries newOff newEnd = (newOff, newEnd, entries) := by
  cases entries with
  | nil => rfl
  | cons entry rest => rw [absorb, if_neg (not_le.mpr (behind entry List.mem_cons_self))]

/-- The segment touches none of the entries. -/
def TouchesNone (entries : List ScrapEntry) (off len : Nat) : Prop :=
  ∀ entry ∈ entries, entry.stop < off ∨ off + len < entry.offset

/-- Inserting takes one more entry exactly when the segment touches none, and then it becomes an
entry as it is. -/
theorem length_insertSegment (separated : Separated entries) :
    (insertSegment entries off len).length ≤ entries.length + 1 ∧
      ((insertSegment entries off len).length = entries.length + 1 ↔ TouchesNone entries off len) ∧
      (TouchesNone entries off len →
        ∀ entry, entry ∈ insertSegment entries off len ↔ entry ∈ ⟨off, len⟩ :: entries) := by
  obtain ⟨skipped, others, rfl, before, reach, built⟩ := insertSegment_parts off len separated
  have fewer := length_absorb_le others off (off + len)
  -- The segments that are skipped end before the new one, so only the others can touch it.
  have behind : TouchesNone (skipped ++ others) off len ↔
      ∀ entry ∈ others, off + len < entry.offset := by
    constructor
    · intro apart entry member
      exact (apart entry (List.mem_append_right _ member)).resolve_left
        (not_lt.mpr (reach entry member))
    · intro behind entry member
      exact (List.mem_append.mp member).imp (before entry) (behind entry)
  rw [built]
  simp only [List.length_append, List.length_cons]
  refine ⟨by omega, ?_, fun apart entry => ?_⟩
  · rw [behind, ← absorb_eq_iff off (off + len) separated.appendRight]
    omega
  · rw [absorb_of_behind (behind.mp apart)]
    simp only [Nat.add_sub_cancel_left, List.mem_append, List.mem_cons]
    tauto

/-- Inserting an anchored segment leaves anchored entries. -/
theorem insertSegment_anchored (separated : Separated entries)
    (bounded : ∀ entry ∈ entries, entry.stop ≤ zoneSize) (room : off + len ≤ zoneSize)
    (anchored : ∀ entry ∈ entries, Anchored entry) (new : Anchored ⟨off, len⟩) :
    ∀ entry ∈ insertSegment entries off len, Anchored entry := by
  have fits := insertSegment_bounded separated bounded room
  obtain ⟨skipped, others, rfl, before, reach, built⟩ := insertSegment_parts off len separated
  have bounds := absorb_bounds others (Nat.le_add_right off len)
  obtain ⟨-, restMem, -⟩ := absorb_rest off (off + len) separated.appendRight
  rw [built] at fits ⊢
  intro entry member
  rcases List.mem_append.mp member with early | later
  · exact anchored entry (List.mem_append_left _ early)
  · rcases List.mem_cons.mp later with rfl | rest
    · -- The grown segment contains the new one, so it inherits its anchor.
      have stop := fits _ (List.mem_append_right _ List.mem_cons_self)
      simp only [Anchored, Segment.stop] at new stop ⊢
      omega
    · exact anchored entry (List.mem_append_right _ (restMem entry rest))

end Insert

/-! ## The 65th entry -/

/-- All 64 entries are in use, the chunk touches none of them, and counting the chunk there is
less than a block at the first byte and less than a block at the last byte of the page. -/
structure Exhausts (page : ScrapPage Cell) (intra len : Nat) : Prop where
  used : page.hdr.number = 64
  apart : TouchesNone page.hdr.entries intra len
  first : ∃ segment ∈ ⟨intra, len⟩ :: page.hdr.entries, ShortStart segment
  last : ∃ segment ∈ ⟨intra, len⟩ :: page.hdr.entries, ShortEnd segment

/-- With 64 entries that are all anchored, the only merge that overflows is the one that would
leave 65 with short ones at both ends. -/
theorem overflow_iff_exhausts {page : ScrapPage Cell} {cells : Nat → Cell} {intra len : Nat}
    (wellFormed : page.WellFormed 64) (positive : 0 < len) (room : intra + len ≤ zoneSize)
    (anchored : ∀ entry ∈ page.hdr.entries, Anchored entry) (new : Anchored ⟨intra, len⟩) :
    (scrapPageMerge 64 page cells intra len).1 = .overflow ↔ Exhausts page intra len := by
  have separated := wellFormed.separated
  have fits : page.hdr.entries.length ≤ 64 := wellFormed.fits
  obtain ⟨most, more, among⟩ := @length_insertSegment page.hdr.entries intra len separated
  have overflows : (scrapPageMerge 64 page cells intra len).1 = .overflow ↔
      64 < (insertSegment page.hdr.entries intra len).length := by
    rw [scrapPageMerge, coalesceInsert_eq]
    by_cases tooMany : 64 < (insertSegment page.hdr.entries intra len).length
    · simp [tooMany]
    · simp [tooMany]
  rw [overflows]
  constructor
  · intro many
    -- One entry more than 64 means that all were in use and none was absorbed.
    have apart : TouchesNone page.hdr.entries intra len := more.mp (by omega)
    obtain ⟨⟨first, firstMem, short⟩, last, lastMem, shortToo⟩ :=
      short_ends_of_many (insertSegment_separated separated positive)
        (insertSegment_bounded separated wellFormed.bounded room)
        (insertSegment_anchored separated wellFormed.bounded room anchored new) many
    exact
      { used := by rw [ScrapHeader.number]; omega
        apart
        first := ⟨first, (among apart first).mp firstMem, short⟩
        last := ⟨last, (among apart last).mp lastMem, shortToo⟩ }
  · intro exhausts
    have used : page.hdr.entries.length = 64 := exhausts.used
    have longer := more.mpr exhausts.apart
    omega

/-! ## Calls of a block or more -/

/-- A call of `nox_write` has at least `NOX_DATAZONE_SIZE / NOX_MAX_ENTRIES` bytes. -/
def Label.wholeBlock : Label n → Bool
  | .call _ request => blockSize ≤ request.size
  | _ => true

/-- The step merges no chunk that exhausts the entries of its page. -/
def Unexhausted (s : Engine n) : Label n → Prop
  | .fg t => ∀ call done p created, s.fg t = .scrap call done (.held p created) →
      (s.pages p).hdr.tag ≠ .sealed →
      ¬ Exhausts (s.pages p) (call.intra done) (call.chunk done)
  | _ => True

namespace Call

variable {call : Call} {done : Nat}

theorem intra_eq (call : Call) (done : Nat) : call.intra done = (call.offset + done) % zoneSize := by
  -- The offset wraps at a multiple of the zone, so the wrap keeps the place in the page.
  have divides : zoneSize ∣ word := by decide
  rw [intra, base, pageBase, Nat.sub_sub_self (Nat.mod_le _ _), cur, Nat.mod_mod_of_dvd _ divides]

/-- After a chunk that did not end its call, the next one starts a page. -/
theorem intra_of_more (more : done + call.chunk done < call.size) :
    call.intra (done + call.chunk done) = 0 := by
  have whole := chunk_eq_of_lt more
  have start := call.intra_eq done
  rw [intra_eq]
  simp only [zoneSize] at *
  omega

/-- The first chunk of a call of a block or more, and every chunk that starts a page, is
anchored. -/
theorem chunk_anchored (large : blockSize ≤ call.size) (started : done = 0 ∨ call.intra done = 0) :
    Anchored ⟨call.intra done, call.chunk done⟩ := by
  rcases started with rfl | start
  · have inside := call.intra_lt 0
    rw [Anchored, Segment.stop]
    simp only [chunk]
    split
    · exact .inl (by simpa using large)
    · exact .inr (.inr (Nat.add_sub_of_le inside.le))
  · exact .inr (.inl start)

end Call

variable {cfg : Config} {file : File} {scratch : Nat → UInt8} {s s' : Engine n} {label : Label n}

/-- Every call has a block or more, and every chunk but the first of its call starts a page; so
every entry is anchored. -/
structure Blocks (s : Engine n) : Prop where
  calls : ∀ t call done pc, s.fg t = .scrap call done pc →
    blockSize ≤ call.size ∧ (done = 0 ∨ call.intra done = 0)
  entries : ∀ p < s.created, ∀ entry ∈ (s.pages p).hdr.entries, Anchored entry

theorem Blocks.calls_step (blocks : Blocks s) (move : Move cfg s label s')
    (whole : label.wholeBlock = true) (t : Fin n) (call : Call) (done : Nat) (pc : ChunkPc)
    (position : s'.fg t = .scrap call done pc) :
    blockSize ≤ call.size ∧ (done = 0 ∨ call.intra done = 0) := by
  by_cases mine : label.thread = some t
  -- Of a call only its start and the end of a chunk that has another after it change `done`.
  · have before := blocks.calls t
    cases own_move move mine with
    | callZero here =>
      obtain rfl := Option.some.inj mine
      simp [here] at position
    | callDirect | oomPage | oomDirect | pwrite | unlockDone =>
      obtain rfl := Option.some.inj mine
      simp at position
    | callScrap =>
      obtain rfl := Option.some.inj mine
      obtain ⟨rfl, rfl, -⟩ : _ = call ∧ 0 = done ∧ _ := by simpa using position
      exact ⟨of_decide_eq_true whole, .inl rfl⟩
    | unlockMore here more =>
      obtain rfl := Option.some.inj mine
      obtain ⟨rfl, rfl, -⟩ : _ = call ∧ _ = done ∧ _ := by simpa using position
      exact ⟨(before _ _ _ here).1, .inr (Call.intra_of_more more)⟩
    | gatePass here | gatePark here | parkedPass here | lookupFound here | alloc here
    | lockPage here | decide here | partialInc here | partialPush here | fullInc here
    | fullEnter here | fullPush here | unlockRetry here | detach here =>
      obtain rfl := Option.some.inj mine
      obtain ⟨rfl, rfl, -⟩ : _ = call ∧ _ = done ∧ _ := by simpa using position
      exact before _ _ _ here
  · rw [fg_frame move mine] at position
    exact blocks.calls t call done pc position

theorem Decided.entries_of_merged {page : ScrapPage Cell} {created : Bool} {cells : Nat → Cell}
    {intra len : Nat} {decision : Decision}
    (way : Decided cfg page created cells intra len decision) (accepted : decision.merged = true) :
    decision.page.hdr.entries = insertSegment page.hdr.entries intra len := by
  cases way with
  | seen | overflow | overflowPush => simp at accepted
  | full _ merges | fullPush _ merges | partialPush _ merges | stay _ merges =>
    simp [(scrapPageMerge_ok merges).2, ScrapPage.retag]

theorem Blocks.step (blocks : Blocks s) (sound : Sound cfg s) (move : Move cfg s label s')
    (whole : label.wholeBlock = true) : Blocks s' := by
  refine ⟨blocks.calls_step move whole, fun p current => ?_⟩
  rcases old_or_new move current with old | ⟨t, call, done, zone, -, page⟩
  · have before := blocks.entries p old
    cases content_step move with
    | kept pages => rwa [(pages p old).entries]
    | @merge t call done q created decision position way accepted pages =>
      rw [pages]
      by_cases same : p = q
      · subst same
        -- The chunk is the first of its call or starts its page.
        have wellFormed := sound.ready.wellFormed p
        obtain ⟨large, started⟩ := blocks.calls t call done _ position
        rw [Function.update_self, way.entries_of_merged accepted]
        exact insertSegment_anchored wellFormed.separated wellFormed.bounded
          (call.intra_add_chunk_le done) before (Call.chunk_anchored large started)
      · rwa [Function.update_of_ne same]
    | @fill q position free pages =>
      rw [pages]
      by_cases same : p = q
      · subst same
        rw [Function.update_self]
        -- The page is one entry after its holes were filled.
        intro entry member
        obtain rfl : entry = ⟨0, zoneSize⟩ := List.mem_singleton.mp member
        exact .inr (.inl rfl)
      · rwa [Function.update_of_ne same]
  · rw [page]
    simp [scrapPageAlloc]

/-! ## Runs of such calls -/

/-- A thread that merges leaves its place by the critical section. -/
theorem decides {t : Fin n} (move : Move cfg s (.fg t) s') {call : Call} {done : Nat} {p : PageId}
    {created : Bool} (position : s.fg t = .scrap call done (.held p created)) :
    ∃ decision, Decided cfg (s.pages p) created (call.cells done) (call.intra done)
      (call.chunk done) decision ∧
      s'.seals = (if decision.sealedNow then [p] else []) ++ s.seals := by
  cases own_move move rfl with
  | decide here decision decided =>
    rw [position] at here
    cases here
    exact ⟨decision, .of_eq decided,
      @seals_chunkEvents n s t p call done decision s.log⟩
  | gatePass here | gatePark here | parkedPass here | lookupFound here | lockPage here
  | partialInc here | partialPush here | fullInc here | fullEnter here | fullPush here
  | unlockMore here | unlockDone here | unlockRetry here | detach here =>
    simp [position] at here

/-- A page is sealed by a step whose merge overflows, and by no other. -/
theorem seals_eq_nil_iff (move : Move cfg s label s') :
    s'.seals = [] ↔ s.seals = [] ∧ ∀ t call done p created, label = .fg t →
      s.fg t = .scrap call done (.held p created) → (s.pages p).hdr.tag ≠ .sealed →
      (scrapPageMerge cfg.maxEntries (s.pages p) (call.cells done) (call.intra done)
        (call.chunk done)).1 ≠ .overflow := by
  constructor
  · intro none_
    refine ⟨List.eq_nil_iff_forall_not_mem.mpr fun p member => ?_, ?_⟩
    · have later := seals_mono move member
      simp [none_] at later
    -- The step is the critical section, and only an overflow has it seal the page.
    · rintro t call done p created rfl position open_ overflows
      obtain ⟨decision, way, seals⟩ := decides move position
      cases way with
      | seen tag => exact open_ tag
      | overflow | overflowPush => simp [none_] at seals
      | full _ merges | fullPush _ merges | partialPush _ merges | stay _ merges =>
        simp [merges] at overflows
  · rintro ⟨none_, accepts⟩
    rcases sealing_step move with
      ⟨seals, -⟩ | ⟨t, call, done, p, created, position, open_, rejected, -, -, -, retrying⟩
    · exact seals.trans none_
    · -- Whoever seals has moved, so the step is its own.
      have mine : label.thread = some t := by
        by_contra other
        rw [fg_frame move other, position] at retrying
        simp [Fg.retrying] at retrying
      have isFg : label = .fg t := by
        cases label with
        | fg u => rw [Option.some.inj mine]
        | call u request =>
          obtain rfl := Option.some.inj mine
          cases own_move move rfl with
          | callZero here | callDirect here | callScrap here => simp [position] at here
        | alloc u address zone =>
          obtain rfl := Option.some.inj mine
          cases own_move move rfl with
          | alloc here => simp [position] at here
        | oom u =>
          obtain rfl := Option.some.inj mine
          cases own_move move rfl with
          | oomPage here | oomDirect here => simp [position] at here
        | pwrite u result =>
          obtain rfl := Option.some.inj mine
          cases own_move move rfl with
          | pwrite here => simp [position] at here
        | _ => simp [Label.thread] at mine
      exact absurd (by rw [rejected]) (accepts t call done p created isFg position open_)

/-- What runs of calls of a block or more keep. -/
structure WholeBlocks (cfg : Config) (s : Engine n) : Prop where
  sound : Sound cfg s
  once : SealedOnce s
  blocks : Blocks s

theorem WholeBlocks.init (cfg : Config) (file : File) (scratch : Nat → UInt8) :
    WholeBlocks cfg (Engine.init n cfg file scratch) where
  sound := .init cfg file scratch
  once := .init cfg file scratch
  blocks := by constructor <;> simp [Engine.init]

theorem WholeBlocks.step (known : WholeBlocks cfg s) (move : Move cfg s label s')
    (whole : label.wholeBlock = true) : WholeBlocks cfg s' where
  sound := known.sound.move move
  once := known.once.step known.sound move
  blocks := known.blocks.step known.sound move whole

/-- A step leaves every page unsealed exactly when it exhausts no entries. -/
theorem WholeBlocks.unsealed_iff (known : WholeBlocks cfg s) (sixtyFour : cfg.maxEntries = 64)
    (move : Move cfg s label s') : s'.seals = [] ↔ s.seals = [] ∧ Unexhausted s label := by
  -- An overflow of this chunk, in the terms of the page before the merge.
  have same {t : Fin n} {call : Call} {done : Nat} {p : PageId} {created : Bool}
      (position : s.fg t = .scrap call done (.held p created)) :
      (scrapPageMerge cfg.maxEntries (s.pages p) (call.cells done) (call.intra done)
        (call.chunk done)).1 = .overflow ↔
        Exhausts (s.pages p) (call.intra done) (call.chunk done) := by
    have wellFormed := known.sound.ready.wellFormed p
    obtain ⟨large, started⟩ := known.blocks.calls t call done _ position
    rw [sixtyFour] at wellFormed ⊢
    exact overflow_iff_exhausts wellFormed
      (Call.chunk_pos (known.sound.ready.progress t call done _ position))
      (call.intra_add_chunk_le done)
      (known.blocks.entries p (target_lt_created known.sound.owned position rfl))
      (Call.chunk_anchored large started)
  rw [seals_eq_nil_iff move]
  refine and_congr_right fun _ => ?_
  constructor
  · intro accepts
    cases label with
    | fg t =>
      intro call done p created position open_
      rw [← same position]
      exact accepts t call done p created rfl position open_
    | _ => trivial
  · rintro unexhausted t call done p created rfl position open_
    rw [Ne, same position]
    exact unexhausted call done p created position open_

/-- With 64 entries, in every run whose calls are of a block or more, whatever their offsets and
whatever the stages do: no merge overflows and no page is sealed, exactly when no chunk comes to a
page whose 64 entries are all in use and touches none of them while, counting the chunk, there is
less than a block at both ends of the page. -/
theorem exhaustion_exact {met : Prop} (sixtyFour : cfg.maxEntries = 64)
    (run : Run (recording (Engine.step cfg) (conforming Unexhausted))
      (fun _ label => label.wholeBlock = true) (Engine.init n cfg file scratch, True) (s, met)) :
    (s.seals = [] ∧ ∀ p, (s.pages p).hdr.tag ≠ .sealed) ↔ met := by
  have both : WholeBlocks cfg s ∧ (True → (s.seals = [] ↔ met)) := by
    refine Run.holds_iff_conforming (fun _ (label : Label n) => label.wholeBlock = true) run
      (WholeBlocks cfg) (fun _ => True) (fun s => s.seals = []) (.init cfg file scratch) rfl ?_ ?_ ?_
    · exact fun known whole stepped => known.step (move_of_step stepped) whole
    · exact fun _ _ => trivial
    · exact fun known _ _ stepped => known.unsealed_iff sixtyFour (move_of_step stepped)
  -- A page with the sealed tag was sealed by a merge, and the history has it.
  rw [← both.2 trivial]
  refine ⟨And.left, fun none_ => ⟨none_, fun p tag => ?_⟩⟩
  simpa [none_] using both.1.once.recorded p tag

/-- A block at `offset`. -/
def blockCall (offset : Nat) (offset_lt : offset < word) : Call where
  buf := fun _ => 1
  size := blockSize
  offset := offset
  size_lt := by decide
  offset_lt := offset_lt

/-- A block that reaches into the second page by one byte, by thread `t`, which creates both
pages. -/
def straddle (t : Fin n) : List (Label n) :=
  [.call t (blockCall (zoneSize - blockSize + 1) (by decide)), .fg t, .alloc t 7 (fun _ => 1), .fg t,
    .fg t, .fg t, .fg t, .fg t, .alloc t 8 (fun _ => 1), .fg t, .fg t, .fg t, .fg t]

/-- Thread `t` puts 63 blocks a byte apart behind the one byte of the second page, then writes a
block of which one byte is left for that page. -/
def exhaust (t : Fin n) : List (Label n) :=
  ((List.finRange 63).flatMap (fun (k : Fin 63) =>
    [.call t (blockCall (zoneSize + 2 + (blockSize + 1) * k)
      (by have := k.isLt; simp only [word, zoneSize, blockSize]; omega)),
      .fg t, .fg t, .fg t, .fg t, .fg t]) : List (Label n)) ++
  ([.call t (blockCall (2 * zoneSize - 1) (by decide)), .fg t, .fg t, .fg t, .fg t] : List (Label n))

/-- A block across the end of the first page. -/
theorem exhaustion_exact_of_straddle :
    ∃ (s : Engine 1) (met : Prop),
      Run (recording (Engine.step .standard) (conforming Unexhausted))
        (fun _ label => label.wholeBlock = true)
        (Engine.init 1 .standard emptyFile fun _ => 0, True) (s, met) ∧
      s.created = 2 ∧ s.seals = [] ∧ met := by
  obtain ⟨s, run, created, none_⟩ :=
    exists_run .standard emptyFile (fun _ => 0) (fun (_ : Engine 1) label => label.wholeBlock)
      (fun _ _ passed => passed) (straddle 0) (fun s => s.created = 2 ∧ s.seals = [])
      (by decide +kernel)
  obtain ⟨met, recorded⟩ := run.record (conforming Unexhausted) True
  have once := sealedOnce_of_run (run.weaken fun _ _ _ => trivial)
  refine ⟨s, met, recorded, created, none_, (exhaustion_exact rfl recorded).mp ⟨none_, ?_⟩⟩
  intro p tag
  simpa [none_] using once.recorded p tag

/-- Writes of a block each seal a page: 65 runs of it have a byte between them, the first and the
last with less than a block. -/
theorem exhausted_by_blocks :
    ¬ ∀ s : Engine 1, Run (Engine.step .standard) (fun _ label => label.wholeBlock = true)
        (Engine.init 1 .standard emptyFile fun _ => 0) s →
      s.seals = [] ∧ ∀ p, (s.pages p).hdr.tag ≠ .sealed := by
  intro claimed
  obtain ⟨s, run, sealed⟩ :=
    exists_run .standard emptyFile (fun _ => 0) (fun (_ : Engine 1) label => label.wholeBlock)
      (fun _ _ passed => passed) (straddle 0 ++ exhaust 0) (fun s => s.seals = [1])
      (by decide +kernel)
  simpa [sealed] using (claimed s run).1

end NoxDB

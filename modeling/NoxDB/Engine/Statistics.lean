import Mathlib.Algebra.BigOperators.Group.Finset.Basic
import Mathlib.Algebra.Order.Field.Rat
import NoxDB.Engine.Retry
import NoxDB.ScrapPage.Overflow

/-! # The page statistics

The counters of `nox_stats.c` that count pages, as a function of the history.  Stage-1 samples a
page when it takes its hole list, and a writer samples it after every merge that leaves it full.
Without I/O errors the pages sampled so far are the full ones and the one whose holes Stage-1 is
reading, so a page is sampled again exactly when a chunk meets such a page and leaves it full.
-/

namespace NoxDB

open Function (update)
open Library.Runs

variable {n : Nat}

/-! ## The counters -/

/-- The counters of `nox_stats.c` that pages are counted in. -/
structure Stats where
  pagesCreated : Nat
  sealEntries : Nat
  pagesFull : Nat
  histStage1 : Nat → Nat
  histFull : Nat → Nat

/-- All counters are static, so they start at zero. -/
def Stats.zero : Stats := ⟨0, 0, 0, fun _ => 0, fun _ => 0⟩

/-- A sample for a histogram of `NOX_MAX_ENTRIES + 1` slots. -/
def bumpHist (cfg : Config) (hist : Nat → Nat) (entries : Nat) : Nat → Nat :=
  if entries ≤ cfg.maxEntries then update hist entries (hist entries + 1) else hist

/-- `nox_stat_page_created`, `nox_stat_seal_entries`, `nox_stat_page_full` and
`nox_stat_entries_at_stage1`, called where the history has their event. -/
def Stats.hook (cfg : Config) (stats : Stats) : Event n → Stats
  | .created _ _ => { stats with pagesCreated := stats.pagesCreated + 1 }
  | .sealedByOverflow _ => { stats with sealEntries := stats.sealEntries + 1 }
  | .statPageFull _ entries =>
    { stats with
      pagesFull := stats.pagesFull + 1
      histFull := bumpHist cfg stats.histFull entries }
  | .statEntriesAtStage1 _ entries =>
    { stats with histStage1 := bumpHist cfg stats.histStage1 entries }
  | _ => stats

/-- The counters after the history of `s`. -/
def Engine.stats (cfg : Config) (s : Engine n) : Stats :=
  s.log.foldr (fun event stats => stats.hook cfg event) .zero

/-- The page an event samples for one of the two histograms. -/
def Event.sample? (cfg : Config) : Event n → Option PageId
  | .statPageFull p entries | .statEntriesAtStage1 p entries =>
    if entries ≤ cfg.maxEntries then some p else none
  | _ => none

/-- The pages sampled for the two histograms, newest first. -/
def Engine.samples (cfg : Config) (s : Engine n) : List PageId :=
  s.log.filterMap (Event.sample? cfg)

/-- Stage-1 has sampled the page and not filled it yet. -/
def Stage1.sampled : Stage1 → Option PageId
  | .guardWait p _ | .readStart p _ | .reading p _ | .readFailed p | .finish p _ => some p
  | _ => none

/-- The page is full, or Stage-1 has sampled it and is reading its holes. -/
def Counted (s : Engine n) (p : PageId) : Prop :=
  scrapPageIsFull (s.pages p) = true ∨ s.s1.sampled = some p

/-- The chunk and what the page holds already make up the whole zone. -/
def ScrapPage.CompletedBy (page : ScrapPage Cell) (intra len : Nat) : Prop :=
  ∀ x < zoneSize, page.Union intra len x

/-- The step merges no chunk into a page that is full already, and none that completes a page
whose holes Stage-1 is reading. -/
def FreshSample (s : Engine n) : Label n → Prop
  | .fg t => ∀ call done p created, s.fg t = .scrap call done (.held p created) →
      (s.pages p).hdr.tag ≠ .sealed →
      scrapPageIsFull (s.pages p) = false ∧ (s.s1.sampled = some p →
        ¬ (s.pages p).CompletedBy (call.intra done) (call.chunk done))
  | _ => True

variable {cfg : Config} {file : File} {scratch : Nat → UInt8} {s s' : Engine n} {label : Label n}

/-! ## What a step samples -/

/-- The critical section leaves the page full after a merge exactly when the chunk completes it. -/
theorem Decided.completes_iff {page : ScrapPage Cell} {created : Bool} {cells : Nat → Cell}
    {intra len : Nat} {decision : Decision}
    (way : Decided cfg page created cells intra len decision)
    (before : page.WellFormed cfg.maxEntries) (positive : 0 < len) (room : intra + len ≤ zoneSize) :
    (scrapPageIsFull decision.page && decision.merged) = true ↔
      page.hdr.tag ≠ .sealed ∧ page.CompletedBy intra len := by
  have after := way.wellFormed before positive room
  rw [Bool.and_eq_true, scrapPageIsFull_iff after]
  constructor
  · rintro ⟨full, merged⟩
    refine ⟨?_, fun x inside => ?_⟩
    · cases way with
      | seen | overflow | overflowPush => simp at merged
      | full tag | fullPush tag | partialPush tag | stay tag => exact tag
    · have covered := (way.covered before positive x).mp (full x inside)
      exact covered.imp_right And.right
  · rintro ⟨open_, completed⟩
    -- A page that becomes full has one entry, which fits into every header.
    have accepts : (scrapPageMerge cfg.maxEntries page cells intra len).1 = .ok := by
      apply scrapPageMerge_ne_overflow cfg.maxEntries_pos
      rw [insertSegment_full before.separated before.bounded positive room completed]
      simp
    have merged : decision.merged = true := by
      cases way with
      | seen tag => exact absurd tag open_
      | overflow _ rejected | overflowPush _ rejected => simp [rejected] at accepts
      | full | fullPush | partialPush | stay => rfl
    refine ⟨fun x inside => (way.covered before positive x).mpr ?_, merged⟩
    exact (completed x inside).imp_right fun range => ⟨merged, range⟩

theorem Decided.full_of_unsampled {page : ScrapPage Cell} {created : Bool} {cells : Nat → Cell}
    {intra len : Nat} {decision : Decision}
    (way : Decided cfg page created cells intra len decision)
    (before : page.WellFormed cfg.maxEntries) (positive : 0 < len) (room : intra + len ≤ zoneSize)
    (unsampled : ¬ (scrapPageIsFull decision.page && decision.merged) = true) :
    scrapPageIsFull decision.page = scrapPageIsFull page := by
  have keeps := way.isFull before positive room
  cases way with
  | seen | overflow | overflowPush => rfl
  | full | fullPush | partialPush | stay =>
    -- The merge was accepted and the page is not full, so it was not full before.
    simp only [Bool.and_true, Bool.not_eq_true] at unsampled
    rw [unsampled, eq_comm, Bool.eq_false_iff]
    exact fun full => by simp [keeps full] at unsampled

theorem samples_chunkEvents (t : Fin n) (p : PageId) (call : Call) (done : Nat)
    (decision : Decision) (fits : decision.page.hdr.number ≤ cfg.maxEntries)
    (log : List (Event n)) :
    ({ s with log := chunkEvents t p call done decision ++ log } : Engine n).samples cfg =
      (if (scrapPageIsFull decision.page && decision.merged) = true then [p] else []) ++
        ({ s with log := log } : Engine n).samples cfg := by
  simp only [Engine.samples, chunkEvents, List.filterMap_append]
  split <;> split <;> split <;> split <;>
    simp [Event.sample?, fits, List.filterMap_cons, List.filterMap_nil]

theorem FreshSample.of_elsewhere {t : Fin n}
    (elsewhere : ∀ call done p created, s.fg t ≠ .scrap call done (.held p created)) :
    FreshSample s (.fg t) :=
  fun call done p created position => absurd position (elsewhere call done p created)

/-- What a step does to the samples and to the pages that are counted. -/
inductive SampleStep (cfg : Config) (s : Engine n) (label : Label n) (s' : Engine n) : Prop where
  | quiet (samples : s'.samples cfg = s.samples cfg) (fresh : FreshSample s label)
      (counted : s'.ioErr = false → ∀ p < s'.created, Counted s' p ↔ p < s.created ∧ Counted s p)
  | taken {p} (position : s.s1 = .popped p) (holes : scrapPageIsFull (s.pages p) = false)
      (fresh : FreshSample s label) (samples : s'.samples cfg = p :: s.samples cfg)
      (created : s'.created = s.created) (counted : ∀ q, Counted s' q ↔ q = p ∨ Counted s q)
  | completed {t call done p created} (mine : label = .fg t)
      (position : s.fg t = .scrap call done (.held p created))
      (open_ : (s.pages p).hdr.tag ≠ .sealed)
      (whole : (s.pages p).CompletedBy (call.intra done) (call.chunk done))
      (samples : s'.samples cfg = p :: s.samples cfg) (same : s'.created = s.created)
      (counted : ∀ q, Counted s' q ↔ q = p ∨ Counted s q)

/-- A step that touches neither the fullness of a page nor what Stage-1 has sampled. -/
theorem SampleStep.idle (samples : s'.samples cfg = s.samples cfg) (fresh : FreshSample s label)
    (created : s'.created = s.created) (sampled : s'.s1.sampled = s.s1.sampled)
    (full : ∀ p, scrapPageIsFull (s'.pages p) = scrapPageIsFull (s.pages p)) :
    SampleStep cfg s label s' := by
  refine .quiet samples fresh fun _ p current => ?_
  rw [Counted, Counted, sampled, full]
  exact ⟨fun holds => ⟨created ▸ current, holds⟩, And.right⟩

theorem isFull_update {p : PageId} {page : ScrapPage Cell}
    (same : scrapPageIsFull page = scrapPageIsFull (s.pages p)) (q : PageId) :
    scrapPageIsFull (update s.pages p page q) = scrapPageIsFull (s.pages q) := by
  by_cases isP : q = p
  · subst isP
    simpa using same
  · simp [isP]

/-- Events that sample no page. -/
theorem samples_append {events log : List (Event n)}
    (none_ : ∀ event ∈ events, event.sample? cfg = none) :
    (events ++ log).filterMap (Event.sample? cfg) = log.filterMap (Event.sample? cfg) := by
  rw [List.filterMap_append, List.filterMap_eq_nil_iff.mpr none_, List.nil_append]

theorem sampled_lt_created (sound : Sound cfg s) {p : PageId} (sampled : s.s1.sampled = some p) :
    p < s.created := by
  have member : p ∈ s.s1.pages := by
    cases position : s.s1 <;> simp_all [Stage1.sampled, Stage1.pages]
  exact sound.hand_lt_created member

theorem sample_fg (sound : Sound cfg s) (move : FgMove cfg s label s') :
    SampleStep cfg s label s' := by
  cases move with
  | @alloc t call done address zone position =>
    refine .quiet rfl trivial fun _ p current => ?_
    rcases Nat.lt_succ_iff_lt_or_eq.mp current with old | rfl
    · have differs : p ≠ s.created := Nat.ne_of_lt old
      simp [Counted, differs, old]
    · -- The page is empty, and Stage-1 has only pages that were there before.
      have absent : s.s1.sampled ≠ some s.created := fun sampled =>
        lt_irrefl _ (sampled_lt_created sound sampled)
      simp [Counted, scrapPageIsFull, scrapPageAlloc, absent]
  | @decide t call done p created position decision decided =>
    have way := Decided.of_eq decided
    have before := sound.ready.wellFormed p
    have positive := Call.chunk_pos (sound.ready.progress t call done _ position)
    have room := call.intra_add_chunk_le done
    have completes := way.completes_iff before positive room
    have samples := @samples_chunkEvents n cfg s t p call done decision
      (way.wellFormed before positive room).fits s.log
    by_cases full : (scrapPageIsFull decision.page && decision.merged) = true
    · obtain ⟨open_, whole⟩ := completes.mp full
      refine .completed rfl position open_ whole (samples.trans (by rw [if_pos full]; rfl)) rfl ?_
      intro q
      by_cases isP : q = p
      · subst isP
        exact iff_of_true (.inl (by simp [(Bool.and_eq_true_iff.mp full).1])) (.inl rfl)
      · simp [Counted, isP]
    · refine .idle (samples.trans (by rw [if_neg full]; rfl)) ?_ rfl rfl
        (isFull_update (way.full_of_unsampled before positive room full))
      intro call' done' p' created' position' open_
      rw [position] at position'
      cases position'
      -- A full page would be completed by any chunk.
      refine ⟨Bool.eq_false_iff.mpr fun already => full (completes.mpr ⟨open_, fun x inside => ?_⟩),
        fun _ whole => full (completes.mpr ⟨open_, whole⟩)⟩
      exact .inl ((scrapPageIsFull_iff before).mp already x inside)
  | callZero | callDirect | callScrap | oomPage | oomDirect | pwrite =>
    exact .idle rfl trivial rfl rfl fun _ => rfl
  | detach position =>
    refine .idle (samples_append fun event among => ?_) (.of_elsewhere (by simp [position])) rfl rfl
      fun _ => rfl
    obtain ⟨q, -, rfl⟩ := List.mem_map.mp among
    rfl
  | gatePass position | gatePark position | parkedPass position | lookupFound position
  | lockPage position | partialInc position | partialPush position | fullInc position
  | fullEnter position | fullPush position | unlockMore position | unlockDone position
  | unlockRetry position =>
    exact .idle rfl (.of_elsewhere (by simp [position])) rfl rfl fun _ => rfl

theorem sample_stage1 (sound : Sound cfg s) (move : Stage1Move cfg s label s') :
    SampleStep cfg s label s' := by
  cases move with
  | @inspectHoles p position free holes idle =>
    have fits : (s.pages p).hdr.number ≤ cfg.maxEntries := (sound.ready.wellFormed p).fits
    refine .taken position holes trivial ?_ rfl fun q => ?_
    · simp [Engine.samples, Event.sample?, fits]
    -- Stage-1 has just popped the page, so it has sampled nothing else.
    · have elsewhere : s.s1.sampled ≠ some q := by simp [position, Stage1.sampled]
      simp only [Counted, elsewhere, or_false]
      simp only [Stage1.sampled, Option.some.injEq]
      rw [or_comm, eq_comm]
  | @fill p position free page filled =>
    subst filled
    refine .quiet rfl trivial fun _ q current => ?_
    -- Stage-1 gives the page up, which is full from here on.
    by_cases isP : q = p
    · subst isP
      refine iff_of_true (.inl ?_) ⟨current, .inr (by rw [position]; rfl)⟩
      simp only [Function.update_self]
      change scrapPageIsFull (scrapPageApplyHoles cfg.maxEntries (s.pages q) s.scratch) = true
      exact scrapPageApplyHoles_full s.scratch
    · have other : ¬ p = q := fun same => isP same.symm
      simp [Counted, isP, position, Stage1.sampled, other, show q < s.created from current]
  -- A page with holes is dropped after a failed read only, and that sets the error.
  | drop => exact .quiet rfl trivial fun fine => by simp at fine
  | pop position | exit position | inspectFull position | inspectBusy position
  | forwardEnter position | forwardPush position | busyPush position | wake position
  | guardPass position | readStart position | readEnd position | readFailed position
  | dropDec position | fillEnter position | fillPush position | preadOk position
  | preadFail position =>
    exact .idle rfl trivial rfl (by rw [position]; rfl) fun _ => rfl

theorem sample_step (sound : Sound cfg s) (move : Move cfg s label s') :
    SampleStep cfg s label s' := by
  cases move with
  | fg move => exact sample_fg sound move
  | stage1 move => exact sample_stage1 sound move
  | stage2 move =>
    cases move with
    | unlink | tag => exact .idle rfl trivial rfl rfl (isFull_update rfl)
    | pwritev =>
      refine .idle ((samples_append fun event among => ?_).trans rfl) trivial rfl rfl fun _ => rfl
      obtain ⟨p, -, rfl⟩ := List.mem_map.mp (List.mem_reverse.mp among)
      rfl
    | _ => exact .idle rfl trivial rfl rfl fun _ => rfl
  | closer move =>
    cases move with
    | @sweepLock err bucket p position alive free page enqueue chosen =>
      refine .idle rfl trivial rfl rfl (isFull_update ?_)
      rw [show page = (Engine.enqueueOne (s.pages p)).1 from congrArg Prod.fst chosen]
      -- Queueing changes the flags of a page and not its entries.
      simp only [Engine.enqueueOne, enqueueFull, enqueuePartial]
      split <;> split <;> rfl
    | destroy =>
      refine .idle (samples_append fun event among => ?_) trivial rfl rfl fun _ => rfl
      obtain ⟨p, -, rfl⟩ := List.mem_map.mp among
      rfl
    | _ => exact .idle rfl trivial rfl rfl fun _ => rfl

/-! ## Whole runs -/

/-- Without I/O errors the pages sampled so far are the full ones and the one Stage-1 is at. -/
def Sampled (cfg : Config) (s : Engine n) : Prop :=
  s.ioErr = false → ∀ p, p ∈ s.samples cfg ↔ p < s.created ∧ Counted s p

/-- A page that is sampled and counted from now on. -/
theorem Sampled.added {p : PageId} (before : ∀ q, q ∈ s.samples cfg ↔ q < s.created ∧ Counted s q)
    (current : p < s.created) (samples : s'.samples cfg = p :: s.samples cfg)
    (created : s'.created = s.created) (counted : ∀ q, Counted s' q ↔ q = p ∨ Counted s q)
    (q : PageId) : q ∈ s'.samples cfg ↔ q < s'.created ∧ Counted s' q := by
  rw [samples, List.mem_cons, before, counted, created]
  constructor
  · rintro (rfl | ⟨old, holds⟩)
    · exact ⟨current, .inl rfl⟩
    · exact ⟨old, .inr holds⟩
  · rintro ⟨old, rfl | holds⟩
    · exact .inl rfl
    · exact .inr ⟨old, holds⟩

theorem Sampled.step (sampled : Sampled cfg s) (sound : Sound cfg s) (move : Move cfg s label s') :
    Sampled cfg s' := by
  intro fine p
  have before := sampled (ioErr_mono move fine)
  have older := created_mono move
  cases sample_step sound move with
  | quiet samples _ counted =>
    rw [samples, before]
    constructor
    · exact fun ⟨old, holds⟩ =>
        ⟨lt_of_lt_of_le old older, (counted fine p (lt_of_lt_of_le old older)).mpr ⟨old, holds⟩⟩
    · exact fun ⟨current, holds⟩ => (counted fine p current).mp holds
  | taken position _ _ samples created counted =>
    have current := sound.hand_lt_created (by rw [position]; exact List.mem_singleton_self _)
    exact Sampled.added before current samples created counted p
  | completed _ position _ _ samples same counted =>
    exact Sampled.added before (target_lt_created sound.owned position rfl) samples same counted p

/-- A step keeps the samples free of repetition exactly when it is a fresh one. -/
theorem Sampled.nodup_iff (sampled : Sampled cfg s) (sound : Sound cfg s)
    (move : Move cfg s label s') (fine : s'.ioErr = false) :
    (s'.samples cfg).Nodup ↔ (s.samples cfg).Nodup ∧ FreshSample s label := by
  have before := sampled (ioErr_mono move fine)
  cases sample_step sound move with
  | quiet samples fresh =>
    rw [samples]
    exact ⟨fun nodup => ⟨nodup, fresh⟩, And.left⟩
  | @taken p position holes fresh samples =>
    -- The page has holes and Stage-1 has only just got to it, so it was never sampled.
    have new : p ∉ s.samples cfg := by
      rw [before]
      rintro ⟨-, full | again⟩
      · simp [holes] at full
      · simp [position, Stage1.sampled] at again
    rw [samples, List.nodup_cons]
    exact ⟨fun both => ⟨both.2, fresh⟩, fun both => ⟨new, both.1⟩⟩
  | @completed t call done p created mine position open_ whole samples =>
    subst mine
    -- Sampled again exactly if it was counted before.
    have current := target_lt_created sound.owned position rfl
    rw [samples, List.nodup_cons, and_comm, before]
    refine and_congr_right fun _ => ?_
    constructor
    · intro uncounted call' done' p' created' position' _
      rw [position] at position'
      cases position'
      refine ⟨Bool.eq_false_iff.mpr fun full => uncounted ⟨current, .inl full⟩, fun again => ?_⟩
      exact absurd ⟨current, .inr again⟩ uncounted
    · rintro fresh ⟨-, counted⟩
      obtain ⟨holes, unread⟩ := fresh call done p created position open_
      rcases counted with full | again
      · simp [holes] at full
      · exact unread again whole

/-! ## The counters and the history -/

def Event.isCreated : Event n → Bool
  | .created _ _ => true
  | _ => false

/-- A sample has a slot in its histogram. -/
def Event.Slotted (cfg : Config) : Event n → Prop
  | .statPageFull _ entries | .statEntriesAtStage1 _ entries => entries ≤ cfg.maxEntries
  | _ => True

/-- Every page there is was counted, and every sample had a slot. -/
structure Logged (cfg : Config) (s : Engine n) : Prop where
  created : s.log.countP Event.isCreated = s.created
  slotted : ∀ event ∈ s.log, event.Slotted cfg

/-- New events that create no page and have a slot if they sample one. -/
theorem Logged.extend (logged : Logged cfg s) (events : List (Event n))
    (log : s'.log = events ++ s.log) (created : s'.created = s.created)
    (plain : ∀ event ∈ events, event.isCreated = false ∧ event.Slotted cfg) : Logged cfg s' := by
  constructor
  · rw [log, List.countP_append, created, logged.created,
      List.countP_eq_zero.mpr fun event member => by simp [(plain event member).1], Nat.zero_add]
  · intro event member
    rw [log] at member
    rcases List.mem_append.mp member with new | old
    · exact (plain event new).2
    · exact logged.slotted event old

theorem Logged.step (logged : Logged cfg s) (sound : Sound cfg s) (move : Move cfg s label s') :
    Logged cfg s' := by
  have silent : s'.log = s.log → s'.created = s.created → Logged cfg s' := fun log created =>
    logged.extend [] log created (by simp)
  cases move with
  | fg move =>
    cases move with
    | alloc =>
      refine ⟨?_, ?_⟩
      · rw [List.countP_cons_of_pos rfl, logged.created]
      · simpa [Event.Slotted] using logged.slotted
    | @decide t call done p created position decision decided =>
      have way := Decided.of_eq decided
      have after := way.wellFormed (sound.ready.wellFormed p)
        (Call.chunk_pos (sound.ready.progress t call done _ position)) (call.intra_add_chunk_le done)
      refine logged.extend _ rfl rfl fun event member => ?_
      simp only [chunkEvents, List.mem_append, List.mem_ite_nil_right, List.mem_singleton] at member
      rcases member with ((⟨-, rfl⟩ | ⟨-, rfl⟩) | ⟨-, rfl⟩) | ⟨-, rfl⟩
      · exact ⟨rfl, after.fits⟩
      · exact ⟨rfl, trivial⟩
      · exact ⟨rfl, trivial⟩
      · exact ⟨rfl, trivial⟩
    | detach =>
      refine logged.extend _ rfl rfl fun event member => ?_
      obtain ⟨q, -, rfl⟩ := List.mem_map.mp member
      exact ⟨rfl, trivial⟩
    | pwrite => exact logged.extend [_, _] rfl rfl (by simp [Event.isCreated, Event.Slotted])
    | callZero | oomPage | oomDirect | unlockDone =>
      exact logged.extend [_] rfl rfl (by simp [Event.isCreated, Event.Slotted])
    | _ => exact silent rfl rfl
  | stage1 move =>
    cases move with
    | inspectHoles =>
      refine logged.extend [_] rfl rfl fun event member => ?_
      obtain rfl := List.mem_singleton.mp member
      exact ⟨rfl, (sound.ready.wellFormed _).fits⟩
    | _ => exact silent rfl rfl
  | stage2 move =>
    cases move with
    | free => exact logged.extend [_] rfl rfl (by simp [Event.isCreated, Event.Slotted])
    | pwritev =>
      refine logged.extend (_ ++ [_]) (List.append_cons _ _ _) rfl fun event member => ?_
      rcases List.mem_append.mp member with wrote | issued
      · obtain ⟨p, -, rfl⟩ := List.mem_map.mp (List.mem_reverse.mp wrote)
        exact ⟨rfl, trivial⟩
      · obtain rfl := List.mem_singleton.mp issued
        exact ⟨rfl, trivial⟩
    | _ => exact silent rfl rfl
  | closer move =>
    cases move with
    | destroy =>
      refine logged.extend _ rfl rfl fun event member => ?_
      obtain ⟨p, -, rfl⟩ := List.mem_map.mp member
      exact ⟨rfl, trivial⟩
    | _ => exact silent rfl rfl

theorem stats_pagesCreated (cfg : Config) (s : Engine n) :
    (s.stats cfg).pagesCreated = s.log.countP Event.isCreated := by
  rw [Engine.stats]
  induction s.log with
  | nil => rfl
  | cons event log inductionHypothesis =>
    rw [List.foldr_cons, List.countP_cons, ← inductionHypothesis]
    cases event <;> rfl

theorem stats_sealEntries (cfg : Config) (s : Engine n) :
    (s.stats cfg).sealEntries = s.seals.length := by
  rw [Engine.stats, Engine.seals]
  induction s.log with
  | nil => rfl
  | cons event log inductionHypothesis =>
    rw [List.foldr_cons, List.filterMap_cons]
    cases event with
    | sealedByOverflow p => exact congrArg (· + 1) inductionHypothesis
    | _ => exact inductionHypothesis

/-- The samples of a histogram with a slot for each of them. -/
theorem sum_bumpHist {entries : Nat} (slotted : entries ≤ cfg.maxEntries) (hist : Nat → Nat) :
    ∑ i ∈ Finset.range (cfg.maxEntries + 1), bumpHist cfg hist entries i =
      ∑ i ∈ Finset.range (cfg.maxEntries + 1), hist i + 1 := by
  have member : entries ∈ Finset.range (cfg.maxEntries + 1) :=
    Finset.mem_range.mpr (Nat.lt_succ_of_le slotted)
  rw [bumpHist, if_pos slotted, Finset.sum_update_of_mem member,
    Finset.sum_eq_add_sum_sdiff_singleton_of_mem member hist]
  omega

/-- Every sample is in one of the two histograms, and those of full pages are counted too. -/
theorem stats_samples (logged : Logged cfg s) :
    (s.stats cfg).pagesFull =
        ∑ i ∈ Finset.range (cfg.maxEntries + 1), (s.stats cfg).histFull i ∧
      (s.stats cfg).pagesFull +
        ∑ i ∈ Finset.range (cfg.maxEntries + 1), (s.stats cfg).histStage1 i =
          (s.samples cfg).length := by
  have slotted := logged.slotted
  rw [Engine.stats, Engine.samples]
  -- Induction on the history: an event is in the histograms exactly once.
  generalize s.log = log at slotted
  induction log with
  | nil => simp [Stats.zero]
  | cons event log inductionHypothesis =>
    obtain ⟨full, all⟩ := inductionHypothesis fun other member =>
      slotted other (List.mem_cons_of_mem _ member)
    have mine := slotted event List.mem_cons_self
    rw [List.foldr_cons]
    generalize List.foldr (fun event stats => Stats.hook cfg stats event) Stats.zero log = stats
      at full all ⊢
    cases event with
    | statPageFull p entries =>
      have fits : entries ≤ cfg.maxEntries := mine
      rw [List.filterMap_cons_some (b := p) (by simp [Event.sample?, fits]), List.length_cons, ← all]
      refine ⟨?_, ?_⟩
      · simp only [Stats.hook]
        rw [sum_bumpHist fits, full]
      · simp only [Stats.hook]
        omega
    | statEntriesAtStage1 p entries =>
      have fits : entries ≤ cfg.maxEntries := mine
      rw [List.filterMap_cons_some (b := p) (by simp [Event.sample?, fits]), List.length_cons, ← all]
      refine ⟨full, ?_⟩
      simp only [Stats.hook]
      rw [sum_bumpHist fits]
      omega
    | _ => exact ⟨full, all⟩

/-- Pages without repetition are at most as many as were created. -/
theorem length_le_created {pages : List PageId} (nodup : pages.Nodup)
    (current : ∀ p ∈ pages, p < s.created) : pages.length ≤ s.created := by
  have among : pages ⊆ List.range s.created := fun p member => List.mem_range.mpr (current p member)
  simpa using (List.subperm_of_subset nodup among).length_le

/-- A share of the pages, in percent. -/
theorem percent_le {part whole : Nat} (le : part ≤ whole) : 100 * (part : ℚ) / whole ≤ 100 := by
  rcases Nat.eq_zero_or_pos whole with rfl | positive
  · simp
  · rw [div_le_iff₀ (by exact_mod_cast positive)]
    exact mul_le_mul_of_nonneg_left (by exact_mod_cast le) (by norm_num)

/-! ## No page is sampled twice, or one is sampled again -/

/-- What every run keeps of the statistics. -/
structure Tallied (cfg : Config) (s : Engine n) : Prop where
  sound : Sound cfg s
  once : SealedOnce s
  sampled : Sampled cfg s
  logged : Logged cfg s

theorem Tallied.init (cfg : Config) (file : File) (scratch : Nat → UInt8) :
    Tallied cfg (Engine.init n cfg file scratch) where
  sound := .init cfg file scratch
  once := .init cfg file scratch
  sampled := by simp [Sampled, Engine.init, Engine.samples]
  logged := ⟨rfl, by simp [Engine.init]⟩

theorem Tallied.step (tallied : Tallied cfg s) (move : Move cfg s label s') : Tallied cfg s' where
  sound := tallied.sound.move move
  once := tallied.once.step tallied.sound move
  sampled := tallied.sampled.step tallied.sound move
  logged := tallied.logged.step tallied.sound move

/-- What the counters say follows from the samples. -/
theorem Tallied.counters (tallied : Tallied cfg s) (fine : s.ioErr = false) :
    ((∀ p, (s.samples cfg).count p ≤ 1) ∧ (∀ p, s.seals.count p ≤ 1) ∧
      (s.stats cfg).pagesFull ≤ (s.stats cfg).pagesCreated ∧
      (s.stats cfg).sealEntries ≤ (s.stats cfg).pagesCreated ∧
      100 * ((s.stats cfg).pagesFull : ℚ) / (s.stats cfg).pagesCreated ≤ 100 ∧
      100 * ((s.stats cfg).sealEntries : ℚ) / (s.stats cfg).pagesCreated ≤ 100) ↔
      (s.samples cfg).Nodup := by
  obtain ⟨-, once, sampled, logged⟩ := tallied
  -- Pages are created one by one, each with an event.
  have created : (s.stats cfg).pagesCreated = s.created :=
    (stats_pagesCreated cfg s).trans logged.created
  have seals : (s.stats cfg).sealEntries ≤ (s.stats cfg).pagesCreated := by
    rw [created, stats_sealEntries]
    exact length_le_created once.nodup fun p member => (once.kept p member).1
  refine ⟨fun all => List.nodup_iff_count_le_one.mpr all.1, fun nodup => ?_⟩
  have full : (s.stats cfg).pagesFull ≤ (s.stats cfg).pagesCreated := by
    have most := length_le_created nodup fun p member => ((sampled fine p).mp member).1
    have total := (stats_samples logged).2
    omega
  exact ⟨List.nodup_iff_count_le_one.mp nodup, List.nodup_iff_count_le_one.mp once.nodup, full,
    seals, percent_le full, percent_le seals⟩

/-- In every run without I/O errors, whatever the writers and the stages do: no page is sampled
twice for the two histograms or for the seals, and the counters of pages stay below the number of
pages, exactly when no step of the run merges a chunk into a page that is full already or completes
a page whose holes Stage-1 is reading. -/
theorem sampled_once_iff {met : Prop}
    (run : Run (recording (Engine.step cfg) (conforming FreshSample)) (fun _ _ => True)
      (Engine.init n cfg file scratch, True) (s, met))
    (fine : s.ioErr = false) :
    ((∀ p, (s.samples cfg).count p ≤ 1) ∧ (∀ p, s.seals.count p ≤ 1) ∧
      (s.stats cfg).pagesFull ≤ (s.stats cfg).pagesCreated ∧
      (s.stats cfg).sealEntries ≤ (s.stats cfg).pagesCreated ∧
      100 * ((s.stats cfg).pagesFull : ℚ) / (s.stats cfg).pagesCreated ≤ 100 ∧
      100 * ((s.stats cfg).sealEntries : ℚ) / (s.stats cfg).pagesCreated ≤ 100) ↔ met := by
  have both : Tallied cfg s ∧ (s.ioErr = false → ((s.samples cfg).Nodup ↔ met)) := by
    refine Run.holds_iff_conforming (fun _ _ => True) run (Tallied cfg) (fun s => s.ioErr = false)
      (fun s => (s.samples cfg).Nodup) (.init cfg file scratch) List.nodup_nil ?_ ?_ ?_
    · exact fun tallied _ stepped => tallied.step (move_of_step stepped)
    · exact fun stepped => ioErr_mono (move_of_step stepped)
    · exact fun tallied _ fine stepped =>
        tallied.sampled.nodup_iff tallied.sound (move_of_step stepped) fine
  exact (both.1.counters fine).trans (both.2 fine)

/-- One write of the whole zone samples its page once. -/
theorem sampled_once_iff_of_zone :
    ∃ (s : Engine 1) (met : Prop),
      Run (recording (Engine.step .standard) (conforming FreshSample)) (fun _ _ => True)
        (Engine.init 1 .standard emptyFile fun _ => 0, True) (s, met) ∧
      s.ioErr = false ∧ s.samples .standard = [0] ∧ met := by
  obtain ⟨s, reached, fine, samples, seals, full, created⟩ :=
    exists_reachable .standard emptyFile (fun _ => 0) (writeZone 0 : List (Label 1))
      (fun s => s.ioErr = false ∧ s.samples .standard = [0] ∧ s.seals = [] ∧
        (s.stats .standard).pagesFull = 1 ∧ (s.stats .standard).pagesCreated = 1)
      (by decide +kernel)
  obtain ⟨met, run⟩ := reached.record (conforming FreshSample) True
  have none_ : (s.stats .standard).sealEntries = 0 := by rw [stats_sealEntries, seals]; rfl
  refine ⟨s, met, run, fine, samples, (sampled_once_iff run fine).mp ?_⟩
  rw [samples, seals, full, created, none_]
  refine ⟨fun p => ?_, by simp, le_rfl, by simp, by norm_num, by norm_num⟩
  exact List.nodup_iff_count_le_one.mp (List.nodup_singleton 0) p

/-- The zone is written twice before Stage-2 takes the page out of the index: the one page there
is has been counted as full twice. -/
theorem sampled_again :
    ¬ ∀ s : Engine 1, Reachable .standard emptyFile (fun _ => 0) s → s.ioErr = false →
      (∀ p, (s.samples .standard).count p ≤ 1) ∧ (∀ p, s.seals.count p ≤ 1) ∧
        (s.stats .standard).pagesFull ≤ (s.stats .standard).pagesCreated ∧
        (s.stats .standard).sealEntries ≤ (s.stats .standard).pagesCreated ∧
        100 * ((s.stats .standard).pagesFull : ℚ) / (s.stats .standard).pagesCreated ≤ 100 ∧
        100 * ((s.stats .standard).sealEntries : ℚ) / (s.stats .standard).pagesCreated ≤ 100 := by
  intro claimed
  obtain ⟨s, reached, fine, samples, full, created⟩ :=
    exists_reachable .standard emptyFile (fun _ => 0)
      (writeZone 0 ++ ([.call 0 zoneCall, .fg 0, .fg 0, .fg 0, .fg 0, .fg 0] : List (Label 1)))
      (fun s => s.ioErr = false ∧ s.samples .standard = [0, 0] ∧
        (s.stats .standard).pagesFull = 2 ∧ (s.stats .standard).pagesCreated = 1)
      (by decide +kernel)
  obtain ⟨-, -, counts, -⟩ := claimed s reached fine
  omega

end NoxDB

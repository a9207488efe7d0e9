import Mathlib.Algebra.BigOperators.Group.Finset.Basic
import NoxDB.Engine.Report
import NoxDB.Engine.Statistics
import NoxDB.ScrapPage.ReadOnce

/-! # The byte statistics

The counters of `nox_stats.c` that count bytes and batches, bumped where the source calls
their hooks.  Every byte that `nox_stat_user_bytes` counts is merged into a page once, still to
be merged, or given up with its call; the histogram of batches and the bytes written say the
same; every page created is written once, still live or thrown away with the index; and Stage-1
asks for at most one zone for each page it samples.
-/

namespace NoxDB

open Function (update)
open Library.Segments
open Library.Runs
open Library.Counting

variable {n : Nat}

/-- The counters of `nox_stats.c` that bytes are counted in, and beside them what no counter
shows: the bytes of failed calls and the pages that `page_index_destroy` freed. -/
structure Traffic where
  userBytes : Nat
  diskWrite : Nat
  diskRead : Nat
  histBatch : Nat → Nat
  /-- The variable `asked` of `scrap_page_read_holes`. -/
  asked : Nat
  abandoned : Nat
  discarded : Nat

def Traffic.zero : Traffic := ⟨0, 0, 0, fun _ => 0, 0, 0, 0⟩

/-- The bytes of a call on the scrap path that are in no page yet. -/
def Fg.undelivered : Fg → Nat
  | .scrap call done pc => call.size - if pc.merged then done + call.chunk done else done
  | _ => 0

/-- `nox_stat_stage2_batch`: a sample past the cap is counted at the cap. -/
def bumpBatch (hist : Nat → Nat) (count : Nat) : Nat → Nat :=
  let slot := if pwritevMaxIov < count then pwritevMaxIov else count
  update hist slot (hist slot + 1)

/-- The hooks in Stage-1: `scrap_page_read_holes` starts to add up, and what it was asked for is
counted if it returned 0. -/
def Traffic.stage1 (traffic : Traffic) : Stage1 → Traffic
  | .readStart _ _ => { traffic with asked := 0 }
  | .reading _ [] => { traffic with diskRead := traffic.diskRead + traffic.asked }
  | _ => traffic

/-- The hooks in Stage-2: the batch before its first page is detached, its bytes when the
writeback is over, whatever came of it. -/
def Traffic.stage2 (traffic : Traffic) : Stage2 → Traffic
  | .detaching [] (_ :: todo) =>
    { traffic with histBatch := bumpBatch traffic.histBatch (todo.length + 1) }
  | .written batch _ => { traffic with diskWrite := traffic.diskWrite + zoneSize * batch.length }
  | _ => traffic

/-- `nox_close` passes no hook; the pages it throws away are noted. -/
def Traffic.closer (traffic : Traffic) (resident : List PageId) : Closer → Traffic
  | .destroy _ => { traffic with discarded := traffic.discarded + resident.length }
  | _ => traffic

/-- The hooks of a step. -/
def Traffic.hook (s : Engine n) (label : Label n) (traffic : Traffic) : Traffic :=
  match label with
  | .call _ call =>
    -- Only the scrap path is counted, and before its first chunk.
    if call.size = 0 ∨ call.isDirect = true then traffic
    else { traffic with userBytes := traffic.userBytes + call.size }
  | .oom t => { traffic with abandoned := traffic.abandoned + (s.fg t).undelivered }
  | .pread (.count _) =>
    match s.s1 with
    | .reading _ (run :: _) => { traffic with asked := traffic.asked + run.size }
    | _ => traffic
  | .stage1 => traffic.stage1 s.s1
  | .stage2 => traffic.stage2 s.s2
  | .closer => traffic.closer s.resident s.closer
  | _ => traffic

/-- The pages of a batch that is in the histogram and whose bytes are not counted yet. -/
def Stage2.issuing : Stage2 → Nat
  | .detaching (p :: done) todo => (p :: done).length + todo.length
  | .tagging done _ todo => done.length + 1 + todo.length
  | .writeStart batch | .writing batch _ | .written batch _ => batch.length
  | _ => 0

/-- The pages whose bytes are counted and that are not freed yet. -/
def Stage2.reclaiming : Stage2 → Nat
  | .latch batch _ | .freeing batch | .leaving _ _ batch | .decrement batch => batch.length
  | _ => 0

/-- The bytes merged into pages so far. -/
def Engine.mergedBytes (s : Engine n) : Nat := (s.merges.map Merge.len).sum

def Event.isStage1Sample : Event n → Bool
  | .statEntriesAtStage1 _ _ => true
  | _ => false

/-- How often Stage-1 took the hole list of a page. -/
def Engine.passes (s : Engine n) : Nat := s.log.countP Event.isStage1Sample

/-- What Stage-1 has asked for fits into the samples it took. -/
def Traffic.Asked (traffic : Traffic) (passes : Nat) : Stage1 → Prop
  | .guardWait _ holes | .readStart _ holes =>
    total (holeRuns holes none) ≤ zoneSize ∧ traffic.diskRead + zoneSize ≤ zoneSize * passes
  | .reading _ runs =>
    traffic.asked + total runs ≤ zoneSize ∧ traffic.diskRead + zoneSize ≤ zoneSize * passes
  | _ => traffic.diskRead ≤ zoneSize * passes

/-- The bytes of the calls on the scrap path are merged, to be merged, or given up. -/
def Traffic.Delivered (traffic : Traffic) (s : Engine n) : Prop :=
  traffic.userBytes = s.mergedBytes + ∑ t, (s.fg t).undelivered + traffic.abandoned

variable {cfg : Config} {file : File} {scratch : Nat → UInt8} {s s' : Engine n} {label : Label n}
  {traffic : Traffic}

/-! ## The bytes of the calls -/

theorem mergedBytes_append (events : List (Event n)) (log : s'.log = events ++ s.log) :
    s'.mergedBytes = ((events.filterMap Event.merge?).map Merge.len).sum + s.mergedBytes := by
  rw [Engine.mergedBytes, Engine.merges, log, List.filterMap_append, List.map_append,
    List.sum_append]
  rfl

/-- Only the foreground merges. -/
theorem mergedBytes_of_silent (events : List (Event n)) (log : s'.log = events ++ s.log)
    (silent : ∀ event ∈ events, event.merge? = none) : s'.mergedBytes = s.mergedBytes := by
  rw [mergedBytes_append events log, List.filterMap_eq_nil_iff.mpr silent]
  exact Nat.zero_add _

/-- What the critical section merges is no longer to be delivered. -/
theorem undelivered_decide {page : ScrapPage Cell} {call : Call} {done : Nat} {created : Bool}
    {decision : Decision} (more : done < call.size)
    (way : Decided cfg page created (call.cells done) (call.intra done) (call.chunk done) decision)
    (t : Fin n) (p : PageId) :
    (((chunkEvents t p call done decision).filterMap Event.merge?).map Merge.len).sum +
      (Fg.scrap call done (decision.next p)).undelivered = call.size - done := by
  have fits := call.done_add_chunk_le done more.le
  obtain ⟨after, before, plain, events⟩ := chunkEvents_split t p call done decision
  have first := merges_of_plain fun event member => plain event (List.mem_append_left _ member)
  have last := merges_of_plain fun event member => plain event (List.mem_append_right _ member)
  rw [events, List.filterMap_append, List.filterMap_append, first, last]
  cases way with
  | seen | overflow | overflowPush =>
    simp [Fg.undelivered, Decision.next, ChunkPc.merged]
  | full | fullPush | partialPush | stay =>
    simp [Event.merge?, Fg.undelivered, Decision.next, ChunkPc.merged]
    omega

/-- The sum of the foreground after one thread moved. -/
theorem Traffic.Delivered.exchange (delivered : traffic.Delivered s) {t : Fin n} {f : Fg}
    (fg : s'.fg = update s.fg t f) {after : Traffic}
    (even : after.userBytes + (s.fg t).undelivered + s.mergedBytes + traffic.abandoned =
      traffic.userBytes + f.undelivered + s'.mergedBytes + after.abandoned) :
    after.Delivered s' := by
  have sum := weigh_update Fg.undelivered s.fg t f
  rw [Traffic.Delivered] at delivered ⊢
  rw [fg]
  omega

theorem Traffic.Delivered.fg (delivered : traffic.Delivered s) (sound : Sound cfg s)
    (move : FgMove cfg s label s') : (traffic.hook s label).Delivered s' := by
  have grown : ∀ events : List (Event n), s'.log = events ++ s.log →
      s'.mergedBytes = ((events.filterMap Event.merge?).map Merge.len).sum + s.mergedBytes :=
    fun events log => mergedBytes_append events log
  have moves : ∀ {t : Fin n} {f : Fg} (events : List (Event n)), s'.fg = update s.fg t f →
      s'.log = events ++ s.log → (∀ event ∈ events, event.merge? = none) →
      (traffic.hook s label).userBytes + (s.fg t).undelivered + traffic.abandoned =
        traffic.userBytes + f.undelivered + (traffic.hook s label).abandoned →
      (traffic.hook s label).Delivered s' := by
    intro t f events fg log silent exchange
    have merged := mergedBytes_of_silent events log silent
    exact delivered.exchange fg (by omega)
  cases move with
  | callZero position running empty =>
    rw [Traffic.Delivered, mergedBytes_of_silent (s := s) [_] rfl (by simp [Event.merge?])]
    simpa [Traffic.hook, Traffic.Delivered, empty] using delivered
  | callDirect position running nonempty direct =>
    refine moves [] rfl rfl (by simp) ?_
    simp [Traffic.hook, direct, position, Fg.undelivered]
  | callScrap position running nonempty scrap =>
    refine moves [] rfl rfl (by simp) ?_
    simp [Traffic.hook, nonempty, scrap, position, Fg.undelivered, ChunkPc.merged]
  | @decide t call done p created position decision decided =>
    have more := sound.ready.progress t call done _ position
    have exchange := undelivered_decide more (Decided.of_eq decided) t p
    refine delivered.exchange rfl ?_
    rw [grown _ rfl]
    simp only [Traffic.hook, position, Fg.undelivered, ChunkPc.merged] at exchange ⊢
    simp only [Bool.false_eq_true, if_false]
    omega
  | oomPage position =>
    refine moves [_] rfl rfl (by simp [Event.merge?]) ?_
    simp [Traffic.hook, position, Fg.undelivered]
    omega
  | oomDirect position =>
    refine moves [_] rfl rfl (by simp [Event.merge?]) ?_
    simp [Traffic.hook, position, Fg.undelivered]
  | alloc position =>
    refine moves [_] rfl rfl (by simp [Event.merge?]) ?_
    simp [Traffic.hook, position, Fg.undelivered, ChunkPc.merged]
  | unlockMore position more =>
    refine moves [] rfl rfl (by simp) ?_
    simp [Traffic.hook, position, Fg.undelivered, ChunkPc.merged]
  | unlockDone position last =>
    refine moves [_] rfl rfl (by simp [Event.merge?]) ?_
    simp [Traffic.hook, position, Fg.undelivered, ChunkPc.merged]
    omega
  | detach position =>
    refine moves _ rfl rfl (by simp [Event.merge?]) ?_
    simp [Traffic.hook, position, Fg.undelivered, ChunkPc.merged]
  | pwrite position =>
    refine moves [_, _] rfl rfl (by simp [Event.merge?]) ?_
    simp [Traffic.hook, position, Fg.undelivered]
  | gatePass position | gatePark position | parkedPass position | lookupFound position
  | lockPage position | unlockRetry position =>
    refine moves [] rfl rfl (by simp) ?_
    simp [Traffic.hook, position, Fg.undelivered, ChunkPc.merged]
  | @partialInc t call done p after position | @partialPush t call done p after position
  | @fullInc t call done p after position | @fullEnter t call done p after position
  | @fullPush t call done p after position =>
    refine moves [] rfl rfl (by simp) ?_
    cases after <;> simp [Traffic.hook, position, Fg.undelivered, ChunkPc.merged]

/-! ## The batches and the pages -/

/-- A batch that fits counts as many pages as it has. -/
theorem sum_bumpBatch {count : Nat} (small : count ≤ pwritevMaxIov) (hist : Nat → Nat) :
    ∑ i ∈ Finset.range (pwritevMaxIov + 1), i * bumpBatch hist count i =
      ∑ i ∈ Finset.range (pwritevMaxIov + 1), i * hist i + count := by
  have member : count ∈ Finset.range (pwritevMaxIov + 1) :=
    Finset.mem_range.mpr (Nat.lt_succ_of_le small)
  have others : ∑ i ∈ (Finset.range (pwritevMaxIov + 1)).erase count, i * bumpBatch hist count i =
      ∑ i ∈ (Finset.range (pwritevMaxIov + 1)).erase count, i * hist i := by
    refine Finset.sum_congr rfl fun i among => ?_
    rw [bumpBatch, if_neg (Nat.not_lt.mpr small),
      Function.update_of_ne (Finset.ne_of_mem_erase among)]
  have mine : bumpBatch hist count count = hist count + 1 := by
    simp [bumpBatch, Nat.not_lt.mpr small]
  rw [← Finset.add_sum_erase _ (fun i => i * bumpBatch hist count i) member,
    ← Finset.add_sum_erase _ (fun i => i * hist i) member, others, mine, Nat.mul_succ]
  omega

theorem bumpBatch_zero {count : Nat} (positive : 0 < count) (hist : Nat → Nat) :
    bumpBatch hist count 0 = hist 0 := by
  rw [bumpBatch]
  refine Function.update_of_ne ?_ _ _
  split
  · decide
  · omega

/-- The histogram and the counters of pages as Stage-2 sees them. -/
structure Batched (s : Engine n) (traffic : Traffic) : Prop where
  unslotted : traffic.histBatch 0 = 0
  batches : zoneSize * ∑ i ∈ Finset.range (pwritevMaxIov + 1), i * traffic.histBatch i =
    traffic.diskWrite + zoneSize * s.s2.issuing
  pages : traffic.diskWrite + zoneSize * (s.watermark.live + traffic.discarded) =
    zoneSize * (s.created + s.s2.reclaiming)

/-- The step passes no hook of Stage-2. -/
theorem Batched.keep (batched : Batched s traffic) {after : Traffic}
    (hist : after.histBatch = traffic.histBatch) (write : after.diskWrite = traffic.diskWrite)
    (discarded : after.discarded = traffic.discarded) (issuing : s'.s2.issuing = s.s2.issuing)
    (reclaiming : s'.s2.reclaiming = s.s2.reclaiming)
    (live : s'.watermark.live = s.watermark.live) (created : s'.created = s.created) :
    Batched s' after where
  unslotted := by rw [hist, batched.unslotted]
  batches := by rw [hist, write, issuing, batched.batches]
  pages := by rw [write, discarded, reclaiming, live, created, batched.pages]

/-- The first page of a batch is detached. -/
theorem Batched.start (batched : Batched s traffic) {todo : List PageId} {p : PageId}
    (small : todo.length + 1 ≤ pwritevMaxIov) (position : s.s2 = .detaching [] (p :: todo))
    (s2 : s'.s2 = .tagging [] p todo) (live : s'.watermark.live = s.watermark.live)
    (created : s'.created = s.created) : Batched s' (traffic.hook s .stage2) := by
  obtain ⟨unslotted, batches, pages⟩ := batched
  have hooked : traffic.hook s .stage2 =
      { traffic with histBatch := bumpBatch traffic.histBatch (todo.length + 1) } := by
    simp only [Traffic.hook, position, Traffic.stage2]
  have issued : s'.s2.issuing = todo.length + 1 := by
    simp [s2, Stage2.issuing, Nat.add_comm]
  rw [position] at batches pages
  rw [hooked]
  refine ⟨?_, ?_, ?_⟩
  · exact (bumpBatch_zero (Nat.succ_pos _) _).trans unslotted
  · simp only [sum_bumpBatch small, issued, Nat.mul_add zoneSize] at batches ⊢
    rw [batches]
    simp [Stage2.issuing]
  · rw [s2, live, created]
    exact pages

theorem Batched.written (batched : Batched s traffic) {batch : List PageId} {ok : Bool}
    (position : s.s2 = .written batch ok) (s2 : s'.s2 = .latch batch ok)
    (live : s'.watermark.live = s.watermark.live) (created : s'.created = s.created) :
    Batched s' (traffic.hook s .stage2) := by
  obtain ⟨unslotted, batches, pages⟩ := batched
  have hooked : traffic.hook s .stage2 =
      { traffic with diskWrite := traffic.diskWrite + zoneSize * batch.length } := by
    simp only [Traffic.hook, position, Traffic.stage2]
  rw [position] at batches pages
  rw [hooked]
  refine ⟨unslotted, ?_, ?_⟩
  · simp only [s2, Stage2.issuing] at batches ⊢
    rw [batches, Nat.mul_zero, Nat.add_zero]
  · simp only [s2, live, created, Stage2.reclaiming, zoneSize] at pages ⊢
    omega

/-- A page of the batch is freed. -/
theorem Batched.free (batched : Batched s traffic) (sound : Sound cfg s) (level : Level 0 s)
    {p : PageId} {base : Nat} {batch : List PageId} (position : s.s2 = .freeing (p :: batch))
    (s2 : s'.s2 = .leaving p base batch) (live : s'.watermark.live = s.watermark.live - 1)
    (created : s'.created = s.created) : Batched s' (traffic.hook s .stage2) := by
  have alive := (Level.alive_free sound.owned position).length_eq
  have count : s.watermark.live = s.alive.length := level.trans (Nat.zero_add _)
  rw [List.length_append, List.length_singleton] at alive
  obtain ⟨unslotted, batches, pages⟩ := batched
  have hooked : traffic.hook s .stage2 = traffic := by
    simp only [Traffic.hook, position, Traffic.stage2]
  rw [position] at batches pages
  rw [hooked]
  refine ⟨unslotted, by rw [s2]; exact batches, ?_⟩
  simp only [s2, live, created, Stage2.reclaiming, List.length_cons, zoneSize] at pages ⊢
  omega

theorem Batched.stage2 (batched : Batched s traffic) (sound : Sound cfg s) (level : Level 0 s)
    (move : Stage2Move s label s') : Batched s' (traffic.hook s label) := by
  have fits := sound.load.batch
  cases move with
  | @unlinkSkip done p todo position | @unlink done p todo position =>
    have small : todo.length + 1 ≤ pwritevMaxIov := by
      rw [position] at fits
      simp only [Stage2.pages, Stage2.kept, List.length_append, List.length_cons] at fits
      omega
    cases done with
    | nil => exact batched.start small position rfl rfl rfl
    | cons first done =>
      refine batched.keep ?_ ?_ ?_ ?_ ?_ rfl rfl <;>
        simp [Traffic.hook, Traffic.stage2, position, Stage2.issuing, Stage2.reclaiming]
      omega
  | written position => exact batched.written position rfl rfl rfl
  | free position => exact batched.free sound level position rfl rfl rfl
  | @tag done p todo position =>
    refine batched.keep ?_ ?_ ?_ ?_ ?_ rfl rfl <;> cases done <;>
      simp [Traffic.hook, Traffic.stage2, position, Stage2.issuing, Stage2.reclaiming]
  | @detachDone done position =>
    refine batched.keep ?_ ?_ ?_ ?_ ?_ rfl rfl <;> cases done <;>
      simp [Traffic.hook, Traffic.stage2, position, Stage2.issuing, Stage2.reclaiming]
  | @pwritev batch st result position fits after outcome =>
    refine batched.keep rfl rfl rfl ?_ ?_ rfl rfl <;> rw [position] <;> cases after <;> rfl
  | pop position | exit position | poppedBusy position | poppedGo position | busyPush position
  | wake position | collectTake position | collectStop position | checkReady position
  | checkNotReady position | pushBack position | writeStart position | latch position
  | freeDone position | leave position | decrement position =>
    refine batched.keep ?_ ?_ ?_ ?_ ?_ rfl rfl <;>
      simp [Traffic.hook, Traffic.stage2, position, Stage2.issuing, Stage2.reclaiming]

theorem Batched.fg (batched : Batched s traffic) (move : FgMove cfg s label s') :
    Batched s' (traffic.hook s label) := by
  cases move with
  | alloc =>
    obtain ⟨unslotted, batches, pages⟩ := batched
    refine ⟨unslotted, batches, ?_⟩
    simp only [Traffic.hook, zoneSize] at pages ⊢
    omega
  | callZero | callDirect | callScrap =>
    simp only [Traffic.hook]
    split <;> exact batched.keep rfl rfl rfl rfl rfl rfl rfl
  | _ => exact batched.keep rfl rfl rfl rfl rfl rfl rfl

/-- `page_index_destroy` frees what is still in the index. -/
theorem Batched.closer (batched : Batched s traffic) (sound : Sound cfg s) (level : Level 0 s)
    (move : CloserMove s label s') : Batched s' (traffic.hook s label) := by
  cases move with
  | @destroy err position =>
    have linked : s.resident.length ≤ s.alive.length := by
      refine ((nodup_resident sound.owned).subperm fun p member => ?_).length_le
      obtain ⟨b, linked⟩ := (mem_resident sound.owned).mp member
      exact mem_alive.mpr (sound.owned.indexed b p linked).1
    have count : s.watermark.live = s.alive.length := level.trans (Nat.zero_add _)
    obtain ⟨unslotted, batches, pages⟩ := batched
    simp only [Traffic.hook, Traffic.closer, position]
    refine ⟨unslotted, batches, ?_⟩
    simp only [zoneSize] at pages ⊢
    omega
  | close | closeFd => exact batched.keep rfl rfl rfl rfl rfl rfl rfl
  | disarm position | firstDrain position | sweepBucket position
  | sweepDone position | sweepFault position | sweepLock position | partialInc position
  | partialPush position | fullInc position | fullEnter position | fullPush position
  | sweepUnlock position | sweepNextFault position | sweepNext position | secondDrain position
  | stopping position | shutdown1 position | join1 position | shutdown2 position | join2 position
  | lastCheck position =>
    simp only [Traffic.hook, Traffic.closer, position]
    exact batched.keep rfl rfl rfl rfl rfl rfl rfl

theorem Batched.stage1 (batched : Batched s traffic) (move : Stage1Move cfg s label s') :
    Batched s' (traffic.hook s label) := by
  cases move with
  | preadOk position =>
    simp only [Traffic.hook, position]
    exact batched.keep rfl rfl rfl rfl rfl rfl rfl
  | preadFail position => exact batched.keep rfl rfl rfl rfl rfl rfl rfl
  | pop position | exit position | inspectFull position | inspectBusy position
  | inspectHoles position | forwardEnter position | forwardPush position | busyPush position
  | wake position | guardPass position | readStart position | readEnd position
  | readFailed position | fill position | drop position | dropDec position | fillEnter position
  | fillPush position =>
    simp only [Traffic.hook, position, Traffic.stage1]
    exact batched.keep rfl rfl rfl rfl rfl rfl rfl

/-! ## The bytes read -/

theorem passes_of_silent (events : List (Event n)) (log : s'.log = events ++ s.log)
    (silent : ∀ event ∈ events, event.isStage1Sample = false) : s'.passes = s.passes := by
  rw [Engine.passes, log, List.countP_append,
    List.countP_eq_zero.mpr fun event member => by simp [silent event member], Nat.zero_add]
  rfl

/-- The runs that cover the holes of a page take at most the zone. -/
theorem total_holeRuns_le {page : ScrapPage Cell} (wellFormed : page.WellFormed cfg.maxEntries) :
    total (holeRuns (scrapPageHoleRanges page (cfg.maxEntries + 1)) none) ≤ zoneSize := by
  have bounded := scrapPageHoleRanges_bounded wellFormed
  have separated := (isBlockRuns_holeRuns (scrapPageHoleRanges_separated wellFormed _)
    bounded).separated
  have blocks := holeRuns_blocks bounded
  cases runs : holeRuns (scrapPageHoleRanges page (cfg.maxEntries + 1)) none with
  | nil => exact Nat.zero_le _
  | cons run rest =>
    rw [runs] at separated blocks
    have room := separated.total_le fun other member => (blocks other member).inside
    omega

theorem Traffic.Asked.stage1 (asked : traffic.Asked s.passes s.s1) (sound : Sound cfg s)
    (move : Stage1Move cfg s label s') : (traffic.hook s label).Asked s'.passes s'.s1 := by
  cases move with
  | @inspectHoles p position =>
    have pass : Engine.passes { s with
        s1 := .guardWait p (scrapPageHoleRanges (s.pages p) (cfg.maxEntries + 1))
        log := .statEntriesAtStage1 p (s.pages p).hdr.number :: s.log } = s.passes + 1 :=
      List.countP_cons_of_pos rfl
    rw [position] at asked
    refine ⟨total_holeRuns_le (sound.ready.wellFormed p), ?_⟩
    simp only [Traffic.hook, position, Traffic.stage1, pass, Nat.mul_succ]
    exact Nat.add_le_add_right asked _
  | @readStart p holes position =>
    rw [position] at asked
    simp only [Traffic.hook, position, Traffic.stage1]
    exact ⟨by simpa using asked.1, asked.2⟩
  | readEnd position =>
    rw [position] at asked
    obtain ⟨within, room⟩ := asked
    simp only [Traffic.hook, position, Traffic.stage1, Traffic.Asked]
    simp only [total_nil] at within
    exact le_trans (by omega) room
  | preadOk position =>
    rw [position] at asked
    obtain ⟨within, room⟩ := asked
    simp only [Traffic.hook, position]
    refine ⟨?_, room⟩
    simpa [Nat.add_assoc] using within
  | preadFail position =>
    rw [position] at asked
    exact le_trans (Nat.le_add_right _ _) asked.2
  | pop position | exit position | inspectFull position | inspectBusy position
  | forwardEnter position | forwardPush position | busyPush position
  | wake position | guardPass position
  | readFailed position | fill position | drop position | dropDec position | fillEnter position
  | fillPush position =>
    rw [position] at asked
    simp only [Traffic.hook, position, Traffic.stage1]
    exact asked

/-- The other threads pass no hook of Stage-1. -/
theorem Traffic.Asked.keep (asked : traffic.Asked s.passes s.s1) {after : Traffic}
    (read : after.diskRead = traffic.diskRead) (pending : after.asked = traffic.asked)
    (s1 : s'.s1 = s.s1) (passes : s'.passes = s.passes) : after.Asked s'.passes s'.s1 := by
  rw [s1, passes]
  cases position : s.s1 <;> simpa only [position, Traffic.Asked, read, pending] using asked

theorem passes_of_fg (move : FgMove cfg s label s') : s'.passes = s.passes := by
  cases move with
  | @decide t call done p created position decision =>
    refine passes_of_silent (chunkEvents t p call done decision) rfl fun event member => ?_
    simp only [chunkEvents, List.mem_append] at member
    rcases member with ((member | member) | member) | member <;> split at member <;>
      simp_all [Event.isStage1Sample]
  | detach => exact passes_of_silent _ rfl (by simp [Event.isStage1Sample])
  | alloc | callZero | oomPage | oomDirect | unlockDone =>
    exact passes_of_silent [_] rfl (by simp [Event.isStage1Sample])
  | pwrite => exact passes_of_silent [_, _] rfl (by simp [Event.isStage1Sample])
  | _ => rfl

theorem Traffic.Asked.fg (asked : traffic.Asked s.passes s.s1) (move : FgMove cfg s label s') :
    (traffic.hook s label).Asked s'.passes s'.s1 := by
  have passes := passes_of_fg move
  cases move with
  | callZero | callDirect | callScrap =>
    refine asked.keep ?_ ?_ rfl passes <;> simp only [Traffic.hook] <;> split <;> rfl
  | _ => exact asked.keep rfl rfl rfl passes

/-- The background neither accepts nor merges bytes. -/
theorem Traffic.Delivered.keep (delivered : traffic.Delivered s) {after : Traffic}
    (bytes : after.userBytes = traffic.userBytes) (abandoned : after.abandoned = traffic.abandoned)
    (fg : s'.fg = s.fg) (merged : s'.mergedBytes = s.mergedBytes) : after.Delivered s' := by
  rw [Traffic.Delivered, bytes, abandoned, fg, merged]
  exact delivered

theorem Traffic.Delivered.stage1 (delivered : traffic.Delivered s)
    (move : Stage1Move cfg s label s') : (traffic.hook s label).Delivered s' := by
  cases move with
  | preadOk position =>
    simp only [Traffic.hook, position]
    exact delivered.keep rfl rfl rfl rfl
  | preadFail position => exact delivered.keep rfl rfl rfl rfl
  | inspectHoles position =>
    simp only [Traffic.hook, position, Traffic.stage1]
    exact delivered.keep rfl rfl rfl (mergedBytes_of_silent [_] rfl (by simp [Event.merge?]))
  | pop position | exit position | inspectFull position | inspectBusy position
  | forwardEnter position | forwardPush position | busyPush position | wake position
  | guardPass position | readStart position | readEnd position | readFailed position
  | fill position | drop position | dropDec position | fillEnter position | fillPush position =>
    simp only [Traffic.hook, position, Traffic.stage1]
    exact delivered.keep rfl rfl rfl rfl

/-- Stage-2 changes only its own counters. -/
theorem hook_of_stage2 (traffic : Traffic) (move : Stage2Move s label s') :
    (traffic.hook s label).userBytes = traffic.userBytes ∧
      (traffic.hook s label).abandoned = traffic.abandoned ∧
      (traffic.hook s label).diskRead = traffic.diskRead ∧
      (traffic.hook s label).asked = traffic.asked := by
  have plain : ∀ s2, (traffic.stage2 s2).userBytes = traffic.userBytes ∧
      (traffic.stage2 s2).abandoned = traffic.abandoned ∧
      (traffic.stage2 s2).diskRead = traffic.diskRead ∧
      (traffic.stage2 s2).asked = traffic.asked := by
    intro s2
    unfold Traffic.stage2
    split <;> exact ⟨rfl, rfl, rfl, rfl⟩
  cases move with
  | pwritev => exact ⟨rfl, rfl, rfl, rfl⟩
  | _ => exact plain s.s2

/-- `nox_close` changes no counter. -/
theorem hook_of_closer (traffic : Traffic) (move : CloserMove s label s') :
    (traffic.hook s label).userBytes = traffic.userBytes ∧
      (traffic.hook s label).abandoned = traffic.abandoned ∧
      (traffic.hook s label).diskRead = traffic.diskRead ∧
      (traffic.hook s label).asked = traffic.asked := by
  have plain : ∀ closer, (traffic.closer s.resident closer).userBytes = traffic.userBytes ∧
      (traffic.closer s.resident closer).abandoned = traffic.abandoned ∧
      (traffic.closer s.resident closer).diskRead = traffic.diskRead ∧
      (traffic.closer s.resident closer).asked = traffic.asked := by
    intro closer
    unfold Traffic.closer
    split <;> exact ⟨rfl, rfl, rfl, rfl⟩
  cases move with
  | close | closeFd => exact ⟨rfl, rfl, rfl, rfl⟩
  | _ => exact plain s.closer

theorem silent_of_stage2 (move : Stage2Move s label s') :
    s'.mergedBytes = s.mergedBytes ∧ s'.passes = s.passes := by
  cases move with
  | free =>
    exact ⟨mergedBytes_of_silent [_] rfl (by simp [Event.merge?]),
      passes_of_silent [_] rfl (by simp [Event.isStage1Sample])⟩
  | pwritev =>
    refine ⟨mergedBytes_of_silent (_ ++ [_]) (List.append_cons _ _ _) ?_,
      passes_of_silent (_ ++ [_]) (List.append_cons _ _ _) ?_⟩
    · simp [Event.merge?, or_imp, forall_and]
    · simp [Event.isStage1Sample, or_imp, forall_and]
  | _ => exact ⟨rfl, rfl⟩

theorem silent_of_closer (move : CloserMove s label s') :
    s'.mergedBytes = s.mergedBytes ∧ s'.passes = s.passes := by
  cases move with
  | destroy =>
    exact ⟨mergedBytes_of_silent _ rfl (by simp [Event.merge?]),
      passes_of_silent _ rfl (by simp [Event.isStage1Sample])⟩
  | _ => exact ⟨rfl, rfl⟩

theorem fg_of_stage2 (move : Stage2Move s label s') : s'.fg = s.fg ∧ s'.s1 = s.s1 := by
  cases move <;> exact ⟨rfl, rfl⟩

theorem fg_of_closer (move : CloserMove s label s') : s'.fg = s.fg ∧ s'.s1 = s.s1 := by
  cases move <;> exact ⟨rfl, rfl⟩

/-! ## Whole runs -/

/-- What the counters say in every reachable state. -/
structure Reconciled (s : Engine n) (traffic : Traffic) : Prop where
  delivered : traffic.Delivered s
  batched : Batched s traffic
  asked : traffic.Asked s.passes s.s1
  /-- Without an error nothing is in the index when it is destroyed. -/
  kept : s.ioErr = false → traffic.discarded = 0

namespace Reconciled

theorem init (cfg : Config) (file : File) (scratch : Nat → UInt8) :
    Reconciled (Engine.init n cfg file scratch) .zero where
  delivered := by
    simp [Traffic.Delivered, Traffic.zero, Engine.init, Engine.mergedBytes, Engine.merges,
      Fg.undelivered]
  batched := ⟨rfl, by simp [Traffic.zero, Engine.init, Stage2.issuing],
    by simp [Traffic.zero, Engine.init, Stage2.reclaiming]⟩
  asked := by simp [Traffic.zero, Engine.init, Traffic.Asked]
  kept := fun _ => rfl

theorem kept_step (reconciled : Reconciled s traffic) (reached : Reachable cfg file scratch s)
    (move : Move cfg s label s') (clean : s'.ioErr = false) :
    (traffic.hook s label).discarded = 0 := by
  have before := ioErr_mono move clean
  have kept := reconciled.kept before
  cases label with
  | closer =>
    cases position : s.closer with
    | destroy err =>
      have empty := (settled_of_joined reached (by simp [position, Closer.phase]) before).1
      simp [Traffic.hook, Traffic.closer, position, kept, resident_of_empty empty]
    | _ => simpa [Traffic.hook, Traffic.closer, position] using kept
  | call t call =>
    simp only [Traffic.hook]
    split <;> exact kept
  | pread result =>
    cases result with
    | fail => exact kept
    | count delivered =>
      simp only [Traffic.hook]
      split <;> exact kept
  | stage1 =>
    simp only [Traffic.hook, Traffic.stage1]
    split <;> exact kept
  | stage2 =>
    simp only [Traffic.hook, Traffic.stage2]
    split <;> exact kept
  | _ => exact kept

theorem step (reconciled : Reconciled s traffic) (reached : Reachable cfg file scratch s)
    (level : Level 0 s) (move : Move cfg s label s') :
    Reconciled s' (traffic.hook s label) := by
  have sound := sound_of_run reached
  have kept := reconciled.kept_step reached move
  obtain ⟨delivered, batched, asked, -⟩ := reconciled
  cases move with
  | fg move => exact ⟨delivered.fg sound move, batched.fg move, asked.fg move, kept⟩
  | stage1 move =>
    exact ⟨delivered.stage1 move, batched.stage1 move, asked.stage1 sound move, kept⟩
  | stage2 move =>
    obtain ⟨bytes, abandoned, read, pending⟩ := hook_of_stage2 traffic move
    obtain ⟨merged, passes⟩ := silent_of_stage2 move
    obtain ⟨fg, s1⟩ := fg_of_stage2 move
    exact ⟨delivered.keep bytes abandoned fg merged, batched.stage2 sound level move,
      asked.keep read pending s1 passes, kept⟩
  | closer move =>
    obtain ⟨bytes, abandoned, read, pending⟩ := hook_of_closer traffic move
    obtain ⟨merged, passes⟩ := silent_of_closer move
    obtain ⟨fg, s1⟩ := fg_of_closer move
    exact ⟨delivered.keep bytes abandoned fg merged, batched.closer sound level move,
      asked.keep read pending s1 passes, kept⟩

end Reconciled

/-- The samples Stage-1 took are those in its histogram. -/
theorem stats_passes (logged : Logged cfg s) :
    ∑ i ∈ Finset.range (cfg.maxEntries + 1), (s.stats cfg).histStage1 i = s.passes := by
  have slotted := logged.slotted
  rw [Engine.stats, Engine.passes]
  generalize s.log = log at slotted
  induction log with
  | nil => simp [Stats.zero]
  | cons event log inductionHypothesis =>
    have earlier := inductionHypothesis fun other member =>
      slotted other (List.mem_cons_of_mem _ member)
    have mine := slotted event List.mem_cons_self
    rw [List.foldr_cons, List.countP_cons, ← earlier]
    cases event with
    | statEntriesAtStage1 p entries => exact sum_bumpHist mine _
    | _ => rfl

/-- The record of a run balances, and the run is one of the engine. -/
theorem reconciled_of_run
    (run : Run (recording (Engine.step cfg) Traffic.hook) (fun _ _ => True)
      (Engine.init n cfg file scratch, .zero) (s, traffic)) :
    Reachable cfg file scratch s ∧ Level 0 s ∧ Logged cfg s ∧ Reconciled s traffic :=
  run.invariant (fun both => Reachable cfg file scratch both.1 ∧ Level 0 both.1 ∧
      Logged cfg both.1 ∧ Reconciled both.1 both.2)
    ⟨.refl, by simp [Level, Engine.init, Engine.alive], ⟨rfl, by simp [Engine.init]⟩,
      .init cfg file scratch⟩ fun known _ stepped => by
      obtain ⟨taken, record⟩ := recording_eq_some stepped
      obtain ⟨reached, level, logged, reconciled⟩ := known
      have move := move_of_step taken
      have sound := sound_of_run reached
      rw [record]
      exact ⟨reached.tail trivial taken, level.step sound move, logged.step sound move,
        reconciled.step reached level move⟩

theorem Traffic.Asked.le (asked : traffic.Asked s.passes s.s1) :
    traffic.diskRead ≤ zoneSize * s.passes := by
  cases position : s.s1 with
  | guardWait | readStart | reading =>
    rw [position] at asked
    exact le_trans (Nat.le_add_right _ _) asked.2
  | _ =>
    rw [position] at asked
    exact asked

/-- When no page is left, all pages were written. -/
theorem Batched.settled (batched : Batched s traffic) (level : Level 0 s)
    (gone : ∀ p < s.created, s.freed p = true) (kept : traffic.discarded = 0)
    (exited : s.s2 = .exited) : traffic.diskWrite = zoneSize * s.created := by
  have none : s.alive = [] := by
    refine List.eq_nil_iff_forall_not_mem.mpr fun p member => ?_
    have alive := mem_alive.mp member
    have freed := gone p alive.1
    rw [show s.freed p = false from alive.2] at freed
    exact absurd freed (by decide)
  have live : s.watermark.live = 0 := by rw [level, none]; rfl
  have pages := batched.pages
  rw [live, kept, exited] at pages
  simpa [Stage2.reclaiming] using pages

/-- In every state of every run the counters agree with each other and with the engine.  Every
byte accepted on the scrap path has been merged, is still to be merged, or belonged to a call
that failed; the histogram of batches weighs the writebacks that are over and the one under way;
every page created was issued once, is alive or was thrown away with the index; and Stage-1 read
at most a zone for each of its samples.  When `nox_close` returns 0 every page created has been
written once. -/
theorem traffic_balances
    (run : Run (recording (Engine.step cfg) Traffic.hook) (fun _ _ => True)
      (Engine.init n cfg file scratch, .zero) (s, traffic)) :
    traffic.userBytes = s.mergedBytes + ∑ t, (s.fg t).undelivered + traffic.abandoned ∧
    (traffic.histBatch 0 = 0 ∧
      zoneSize * ∑ i ∈ Finset.range (pwritevMaxIov + 1), i * traffic.histBatch i =
        traffic.diskWrite + zoneSize * s.s2.issuing) ∧
    traffic.diskWrite + zoneSize * (s.watermark.live + traffic.discarded) =
      zoneSize * ((s.stats cfg).pagesCreated + s.s2.reclaiming) ∧
    traffic.diskRead ≤
      zoneSize * ∑ i ∈ Finset.range (cfg.maxEntries + 1), (s.stats cfg).histStage1 i ∧
    (s.closer = .returned false →
      traffic.userBytes = s.mergedBytes + traffic.abandoned ∧
      traffic.diskWrite = zoneSize * (s.stats cfg).pagesCreated) := by
  obtain ⟨reached, level, logged, reconciled⟩ := reconciled_of_run run
  have created : (s.stats cfg).pagesCreated = s.created :=
    (stats_pagesCreated cfg s).trans logged.created
  rw [created, stats_passes logged]
  refine ⟨reconciled.delivered, ⟨reconciled.batched.unslotted, reconciled.batched.batches⟩,
    reconciled.batched.pages, reconciled.asked.le, fun closed => ?_⟩
  have phases := (sound_of_run reached).phases
  have late : s.closer.phase = 13 := by rw [closed]; rfl
  have clean := clean_of_closed reached closed
  have settled := settled_of_joined reached (by omega) clean
  refine ⟨?_, reconciled.batched.settled level (fun p current => (settled.2 p current).2)
    (reconciled.kept clean) (phases.joined2 (by omega))⟩
  have delivered := reconciled.delivered
  have idle := phases.idle (by omega)
  simpa [Traffic.Delivered, idle, Fg.undelivered] using delivered

/-- Ten bytes cost one zone read and one zone written. -/
theorem traffic_balances_of_tiny :
    ∃ (s : Engine 1) (traffic : Traffic),
      Run (recording (Engine.step .standard) Traffic.hook) (fun _ _ => True)
        (Engine.init 1 .standard emptyFile (fun _ => 0), .zero) (s, traffic) ∧
      s.closer = .returned false ∧ traffic.userBytes = 10 ∧ traffic.diskRead = zoneSize ∧
      s.mergedBytes + traffic.abandoned = 10 ∧
      traffic.diskWrite = zoneSize * (s.stats .standard).pagesCreated := by
  have reached : ∃ both, Run (recording (Engine.step .standard) Traffic.hook) (fun _ _ => True)
      (Engine.init 1 .standard emptyFile (fun _ => 0), .zero) both ∧
      both.1.closer = .returned false ∧ both.2.userBytes = 10 ∧ both.2.diskRead = zoneSize :=
    Run.exists_of_follow _ (fun _ _ => true)
      (tinyWrite ++ tinyFill ++ tinyWriteback ++ tinyFree ++ tinyClose) (fun _ _ _ => trivial)
      (fun both : Engine 1 × Traffic =>
        both.1.closer = .returned false ∧ both.2.userBytes = 10 ∧ both.2.diskRead = zoneSize)
      (by decide +kernel)
  obtain ⟨⟨s, traffic⟩, run, closed, user, read⟩ := reached
  dsimp only at closed user read
  obtain ⟨-, -, -, -, ending⟩ := traffic_balances run
  obtain ⟨delivered, written⟩ := ending closed
  exact ⟨s, traffic, run, closed, user, read, delivered.symm.trans user, written⟩

end NoxDB

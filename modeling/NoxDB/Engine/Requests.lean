import NoxDB.Engine.Assembly

/-! # What the device is asked for

The device calls of the engine as the kernel sees them: a file offset and the buffers.
Where the buffers lie is a parameter; `posix_memalign` aligns every one of them except
what the application passes to `nox_write`.
-/

namespace NoxDB

open Function (update)
open Library.Runs
open Library.Segments

variable {n : Nat}

structure Iovec where
  address : Nat
  len : Nat
deriving DecidableEq, Repr

/-- The arguments of a `pread`, `pwrite` or `pwritev`. -/
structure Request where
  offset : Nat
  iov : List Iovec
deriving DecidableEq, Repr

namespace Request

/-- The ranges of the file, by start and length, that consecutive buffers stand for. -/
def extents : Nat → List Iovec → List (Nat × Nat)
  | _, [] => []
  | offset, v :: iov => (offset, v.len) :: extents (offset + v.len) iov

/-- What `O_DIRECT` demands. -/
def Aligned (request : Request) : Prop :=
  blockSize ∣ request.offset ∧ ∀ v ∈ request.iov, blockSize ∣ v.address ∧ blockSize ∣ v.len

/-- Each buffer is transferred to or from the window of the page it is for. -/
def Within (request : Request) (s : Engine n) (pages : List PageId) : Prop :=
  List.Forall₂ (fun p (extent : Nat × Nat) => (s.pages p).base ≤ extent.1 ∧
    extent.1 + extent.2 ≤ (s.pages p).base + zoneSize) pages (extents request.offset request.iov)

end Request

/-- Where the buffers of the engine lie. -/
structure Memory (n : Nat) where
  /-- The buffer that the caller on thread `t` passed. -/
  user : Fin n → Nat
  /-- The bounce buffer of `io_direct_pwrite` on thread `t`. -/
  bounce : Fin n → Nat
  scratch : Nat
  data : PageId → Nat

/-- `posix_memalign` did what it was asked. -/
structure Memory.Aligned (memory : Memory n) : Prop where
  bounce : ∀ t, blockSize ∣ memory.bounce t
  scratch : blockSize ∣ memory.scratch
  data : ∀ p, blockSize ∣ memory.data p

/-- `src` in `io_direct_pwrite`. -/
def Memory.source (memory : Memory n) (t : Fin n) : Nat :=
  if memory.user t % blockSize = 0 then memory.user t else memory.bounce t

namespace Engine

/-- The device call that a step with this label answers. -/
def request (s : Engine n) (memory : Memory n) : Label n → Option Request
  | .pwrite t _ =>
    match s.fg t with
    | .direct call => some ⟨call.offset, [⟨memory.source t, call.size⟩]⟩
    | _ => none
  | .pread _ =>
    match s.s1 with
    | .reading p (run :: _) =>
      some ⟨(s.pages p).base + run.offset, [⟨memory.scratch + run.offset, run.size⟩]⟩
    | _ => none
  | .pwritev _ =>
    match s.s2 with
    | .writing batch st =>
      some ⟨(s.pages (batch.headD 0)).base + st.i * zoneSize,
        (batch.drop st.i).map fun p => ⟨memory.data p, zoneSize⟩⟩
    | _ => none
  | _ => none

/-- The pages that a device call of the scrap path serves, in the order of its buffers. -/
def served (s : Engine n) : Label n → Option (List PageId)
  | .pread _ =>
    match s.s1 with
    | .reading p (_ :: _) => some [p]
    | _ => none
  | .pwritev _ =>
    match s.s2 with
    | .writing batch st => some (batch.drop st.i)
    | _ => none
  | _ => none

end Engine

/-- The label is the device's answer to a call. -/
def Label.isDevice : Label n → Bool
  | .pwrite _ _ | .pread _ | .pwritev _ => true
  | _ => false

/-- Every write the application asks for ends at the largest file offset or before. -/
def FitsFile (_ : Engine n) : Label n → Prop
  | .call _ call => call.offset + call.size ≤ maxOffset
  | _ => True

instance (s : Engine n) (label : Label n) : Decidable (FitsFile s label) :=
  match label with
  | .call _ _ => inferInstanceAs (Decidable (_ ≤ _))
  | .fg _ | .alloc _ _ _ | .oom _ | .pwrite _ _ | .stage1 | .pread _ | .stage2 | .pwritev _
  | .close | .closer | .closeFd _ => inferInstanceAs (Decidable True)

/-- The reads that Stage-1 has still to issue for its page. -/
def Stage1.unissued : Stage1 → List Segment
  | .guardWait _ holes | .readStart _ holes => holeRuns holes none
  | .reading _ runs => runs
  | _ => []

/-- The batch that Stage-2 has collected so far and not yet written. -/
def Stage2.collected : Stage2 → Option (List PageId)
  | .collect batch | .check batch _ | .pushBack batch _ | .writeStart batch | .writing batch _ =>
    some batch
  | .detaching done todo => some (done ++ todo)
  | .tagging done p todo => some (done ++ p :: todo)
  | _ => none

/-- What makes the next device call of each thread an aligned one. -/
structure InFile (s : Engine n) : Prop where
  direct : ∀ t call, s.fg t = .direct call →
    call.isDirect = true ∧ call.offset + call.size ≤ maxOffset
  scrap : ∀ t call done pc, s.fg t = .scrap call done pc →
    call.offset + call.size ≤ maxOffset ∧ done < call.size
  pages : ∀ p < s.created, (s.pages p).base + zoneSize ≤ maxOffset
  runs : ∀ run ∈ s.s1.unissued, BlockRun run
  batch : s.s2.collected ≠ some []

variable {cfg : Config} {s s' : Engine n} {label : Label n}

/-- The window of a chunk that ends before the largest offset does so too. -/
theorem Call.base_add_zone_le_maxOffset {call : Call} {done : Nat}
    (fits : call.offset + call.size ≤ maxOffset) (more : done < call.size) :
    call.base done + zoneSize ≤ maxOffset := by
  have cur : call.cur done = call.offset + done := by
    rw [Call.cur]
    exact Nat.mod_eq_of_lt (by simp only [maxOffset, word] at *; omega)
  have below := pageBase_le (call.cur done)
  obtain ⟨k, base⟩ := call.base_aligned done
  rw [Call.base] at base ⊢
  simp only [maxOffset, zoneSize] at *
  omega

namespace InFile

theorem init (cfg : Config) (file : File) (scratch : Nat → UInt8) :
    InFile (Engine.init n cfg file scratch) := by
  constructor <;> simp [Engine.init, Stage1.unissued, Stage2.collected]

/-- A thread that goes on inside its call. -/
theorem scrap_update (inFile : InFile s) {t : Fin n} {f : Fg} (fg : s'.fg = update s.fg t f)
    (here : ∀ call done pc, f = .scrap call done pc →
      call.offset + call.size ≤ maxOffset ∧ done < call.size) :
    ∀ t call done pc, s'.fg t = .scrap call done pc →
      call.offset + call.size ≤ maxOffset ∧ done < call.size := by
  intro u call done pc position
  rw [fg] at position
  by_cases same : u = t
  · subst same
    exact here call done pc (by simpa using position)
  · exact inFile.scrap u call done pc (by simpa [same] using position)

theorem direct_update (inFile : InFile s) {t : Fin n} {f : Fg} (fg : s'.fg = update s.fg t f)
    (here : ∀ call, f = .direct call → call.isDirect = true ∧ call.offset + call.size ≤ maxOffset) :
    ∀ t call, s'.fg t = .direct call →
      call.isDirect = true ∧ call.offset + call.size ≤ maxOffset := by
  intro u call position
  rw [fg] at position
  by_cases same : u = t
  · subst same
    exact here call (by simpa using position)
  · exact inFile.direct u call (by simpa [same] using position)

theorem pages_step (inFile : InFile s) (sound : Sound cfg s) (move : Move cfg s label s') :
    ∀ p < s'.created, (s'.pages p).base + zoneSize ≤ maxOffset := by
  intro p current
  rcases old_or_new move current with old | ⟨t, call, done, zone, position, page⟩
  · rw [base_stable (sound.refines move) p old]
    exact inFile.pages p old
  · obtain ⟨fits, more⟩ := inFile.scrap t call done _ position
    rw [page]
    exact Call.base_add_zone_le_maxOffset fits more

theorem calls_step (inFile : InFile s) (fits : FitsFile s label) (move : FgMove cfg s label s') :
    (∀ t call, s'.fg t = .direct call →
      call.isDirect = true ∧ call.offset + call.size ≤ maxOffset) ∧
    ∀ t call done pc, s'.fg t = .scrap call done pc →
      call.offset + call.size ≤ maxOffset ∧ done < call.size := by
  cases move with
  | callZero => exact ⟨inFile.direct, inFile.scrap⟩
  | callDirect position running nonempty direct =>
    refine ⟨inFile.direct_update rfl ?_, inFile.scrap_update rfl (by simp)⟩
    rintro call ⟨⟩
    exact ⟨direct, fits⟩
  | callScrap position running nonempty scrap =>
    refine ⟨inFile.direct_update rfl (by simp), inFile.scrap_update rfl ?_⟩
    rintro call done pc ⟨⟩
    exact ⟨fits, Nat.pos_of_ne_zero nonempty⟩
  | unlockMore position more =>
    refine ⟨inFile.direct_update rfl (by simp), inFile.scrap_update rfl ?_⟩
    rintro call done pc ⟨⟩
    exact ⟨(inFile.scrap _ _ _ _ position).1, more⟩
  | oomPage | oomDirect | unlockDone | pwrite =>
    exact ⟨inFile.direct_update rfl (by simp), inFile.scrap_update rfl (by simp)⟩
  | gatePass position | gatePark position | parkedPass position | lookupFound position
  | alloc position | lockPage position | decide position | partialInc position
  | partialPush position | fullInc position | fullEnter position | fullPush position
  | unlockRetry position | detach position =>
    refine ⟨inFile.direct_update rfl (by simp), inFile.scrap_update rfl ?_⟩
    rintro call done pc ⟨⟩
    exact inFile.scrap _ _ _ _ position

theorem runs_step (inFile : InFile s) (sound : Sound cfg s) (move : Stage1Move cfg s label s') :
    ∀ run ∈ s'.s1.unissued, BlockRun run := by
  have before := inFile.runs
  cases move with
  | inspectHoles position =>
    exact holeRuns_blocks (scrapPageHoleRanges_bounded (sound.ready.wellFormed _))
  | guardPass position | readStart position =>
    rw [position] at before
    exact before
  | preadOk position =>
    rw [position] at before
    exact fun run later => before run (List.mem_cons_of_mem _ later)
  | _ => simp [Stage1.unissued]

theorem batch_step (inFile : InFile s) (move : Stage2Move s label s') :
    s'.s2.collected ≠ some [] := by
  have before := inFile.batch
  cases move with
  | pwritev position fits after outcome =>
    rw [position] at before
    cases after with
    | again next => exact before
    | done total => simp [afterPwritev, Stage2.collected]
  | collectTake position | collectStop position | checkNotReady position | pushBack position
  | detachDone position | writeStart position =>
    rw [position] at before
    simpa [Stage2.collected] using before
  | _ => simp [Stage2.collected]

theorem step (inFile : InFile s) (sound : Sound cfg s) (fits : FitsFile s label)
    (move : Move cfg s label s') : InFile s' := by
  have pages := inFile.pages_step sound move
  cases move with
  | fg move =>
    have same : s'.s1 = s.s1 ∧ s'.s2 = s.s2 := by cases move <;> exact ⟨rfl, rfl⟩
    obtain ⟨direct, scrap⟩ := inFile.calls_step fits move
    exact ⟨direct, scrap, pages, same.1 ▸ inFile.runs, same.2 ▸ inFile.batch⟩
  | stage1 move =>
    have same : s'.fg = s.fg ∧ s'.s2 = s.s2 := by cases move <;> exact ⟨rfl, rfl⟩
    exact ⟨same.1 ▸ inFile.direct, same.1 ▸ inFile.scrap, pages, inFile.runs_step sound move,
      same.2 ▸ inFile.batch⟩
  | stage2 move =>
    have same : s'.fg = s.fg ∧ s'.s1 = s.s1 := by cases move <;> exact ⟨rfl, rfl⟩
    exact ⟨same.1 ▸ inFile.direct, same.1 ▸ inFile.scrap, pages, same.2 ▸ inFile.runs,
      inFile.batch_step move⟩
  | closer move =>
    have same : s'.fg = s.fg ∧ s'.s1 = s.s1 ∧ s'.s2 = s.s2 := by
      cases move <;> exact ⟨rfl, rfl, rfl⟩
    exact ⟨same.1 ▸ inFile.direct, same.1 ▸ inFile.scrap, pages, same.2.1 ▸ inFile.runs,
      same.2.2 ▸ inFile.batch⟩

end InFile

/-! ## The calls of each thread -/

theorem blockSize_dvd_of_zoneSize_dvd {x : Nat} (aligned : zoneSize ∣ x) : blockSize ∣ x :=
  dvd_trans (by decide) aligned

theorem Memory.Aligned.source {memory : Memory n} (aligned : memory.Aligned) (t : Fin n) :
    blockSize ∣ memory.source t := by
  rw [Memory.source]
  split
  · next already => exact Nat.dvd_of_mod_eq_zero already
  · exact aligned.bounce t

theorem InFile.direct_aligned (inFile : InFile s) {memory : Memory n} (aligned : memory.Aligned)
    {t : Fin n} {call : Call} (position : s.fg t = .direct call) :
    Request.Aligned ⟨call.offset, [⟨memory.source t, call.size⟩]⟩ := by
  have big := (inFile.direct t call position).1
  simp only [Call.isDirect, Bool.and_eq_true, beq_iff_eq] at big
  refine ⟨Nat.dvd_of_mod_eq_zero big.2, ?_⟩
  rintro v (_ | ⟨_, ⟨⟩⟩)
  exact ⟨aligned.source t, Nat.dvd_of_mod_eq_zero big.1.2⟩

theorem InFile.read_aligned (inFile : InFile s) (ordinary : Ordinary cfg s) {memory : Memory n}
    (aligned : memory.Aligned) {p : PageId} {run : Segment} {runs : List Segment}
    (position : s.s1 = .reading p (run :: runs)) :
    Request.Aligned
      ⟨(s.pages p).base + run.offset, [⟨memory.scratch + run.offset, run.size⟩]⟩ := by
  have unread : s.s1.unread = some (p, run :: runs) := by rw [position]; rfl
  have old := unread_lt_created ordinary.sound unread
  have block : BlockRun run := inFile.runs run (by simp [position, Stage1.unissued])
  refine ⟨Nat.dvd_add (blockSize_dvd_of_zoneSize_dvd (ordinary.placed p old).1) block.offset, ?_⟩
  rintro v (_ | ⟨_, ⟨⟩⟩)
  exact ⟨Nat.dvd_add aligned.scratch block.offset, block.size⟩

theorem InFile.read_within (inFile : InFile s) {memory : Memory n} {p : PageId} {run : Segment}
    {runs : List Segment} (position : s.s1 = .reading p (run :: runs)) :
    Request.Within
      ⟨(s.pages p).base + run.offset, [⟨memory.scratch + run.offset, run.size⟩]⟩ s [p] := by
  have block : BlockRun run := inFile.runs run (by simp [position, Stage1.unissued])
  have inside := block.inside
  simp only [Segment.stop] at inside
  refine .cons ⟨Nat.le_add_right _ _, ?_⟩ .nil
  simp only
  omega

/-- The pages of a batch follow each other without wrapping around. -/
theorem InFile.base_of_row (inFile : InFile s) (ordinary : Ordinary cfg s) {batch : List PageId}
    {st : PwritevState} (position : s.s2 = .writing batch st) {i : Nat} {p : PageId}
    (row : batch[i]? = some p) :
    (s.pages p).base = (s.pages (batch.headD 0)).base + i * zoneSize := by
  have rows := ordinary.rows.batch
  have short := ordinary.sound.load.batch
  simp only [position, Stage2.batch, Stage2.pages, Stage2.tagged, Stage2.unlinked, Stage2.kept]
    at rows short
  have within : i < batch.length := (List.getElem?_eq_some_iff.mp row).1
  have nonempty : batch[0]? = some (batch.headD 0) := by
    cases batch with
    | nil => simp at within
    | cons => simp
  have head := inFile.pages _ (rows 0 _ nonempty).1
  rw [(rows i p row).2]
  apply Nat.mod_eq_of_lt
  simp only [Option.toList_none, List.append_nil] at short
  simp only [pwritevMaxIov, maxOffset, word, zoneSize] at *
  omega

theorem extents_of_rows {memory : Memory n} {pages : List PageId} {offset : Nat}
    (rows : ∀ (i : Nat) p, pages[i]? = some p → (s.pages p).base = offset + i * zoneSize) :
    Request.Within ⟨offset, pages.map fun p => ⟨memory.data p, zoneSize⟩⟩ s pages := by
  induction pages generalizing offset with
  | nil => exact .nil
  | cons p pages inductionHypothesis =>
    have first := rows 0 p rfl
    refine .cons (by simp only; omega) (inductionHypothesis fun i q at_ => ?_)
    have next := rows (i + 1) q at_
    simp only [Nat.add_mul] at next ⊢
    omega

theorem InFile.write_within (inFile : InFile s) (ordinary : Ordinary cfg s) {memory : Memory n}
    {batch : List PageId} {st : PwritevState} (position : s.s2 = .writing batch st) :
    Request.Within ⟨(s.pages (batch.headD 0)).base + st.i * zoneSize,
      (batch.drop st.i).map fun p => ⟨memory.data p, zoneSize⟩⟩ s (batch.drop st.i) := by
  apply extents_of_rows
  intro i p row
  rw [List.getElem?_drop] at row
  rw [inFile.base_of_row ordinary position row, Nat.add_mul, Nat.add_assoc]

theorem InFile.write_aligned (inFile : InFile s) (ordinary : Ordinary cfg s) {memory : Memory n} (aligned : memory.Aligned)
    {batch : List PageId} {st : PwritevState} (position : s.s2 = .writing batch st) :
    Request.Aligned ⟨(s.pages (batch.headD 0)).base + st.i * zoneSize,
      (batch.drop st.i).map fun p => ⟨memory.data p, zoneSize⟩⟩ := by
  have rows := ordinary.rows.batch
  simp only [position, Stage2.batch] at rows
  constructor
  · apply blockSize_dvd_of_zoneSize_dvd
    apply Nat.dvd_add _ (Nat.dvd_mul_left _ _)
    cases batch with
    | nil => exact absurd (by rw [position]; rfl) inFile.batch
    | cons p batch => exact (ordinary.placed p (rows 0 p rfl).1).1
  · intro v member
    obtain ⟨p, -, rfl⟩ := List.mem_map.mp member
    exact ⟨aligned.data p, show blockSize ∣ zoneSize by decide⟩

theorem InFile.of_run {file : File} {scratch : Nat → UInt8}
    (run : Run (Engine.step cfg) FitsFile (Engine.init n cfg file scratch) s) :
    Ordinary cfg s ∧ InFile s := by
  apply run.invariant fun s => Ordinary cfg s ∧ InFile s
  · exact ⟨.init cfg file scratch, .init cfg file scratch⟩
  · rintro middle last label ⟨ordinary, inFile⟩ fits stepped
    have move := move_of_step stepped
    exact ⟨ordinary.step move, inFile.step ordinary.sound fits move⟩

/-- Every device call is aligned in its offset, its lengths and its buffers, and on the scrap
path it transfers nothing outside the windows of the pages it serves. -/
theorem device_calls_aligned {file : File} {scratch : Nat → UInt8} {memory : Memory n}
    (aligned : memory.Aligned)
    (run : Run (Engine.step cfg) FitsFile (Engine.init n cfg file scratch) s)
    (device : label.isDevice = true) (stepped : s.step cfg label = some s') :
    ∃ request, s.request memory label = some request ∧ request.Aligned ∧
      ∀ pages, s.served label = some pages → request.Within s pages := by
  obtain ⟨ordinary, inFile⟩ := InFile.of_run run
  cases move_of_step stepped with
  | fg move =>
    cases move with
    | pwrite position =>
      exact ⟨_, by simp [Engine.request, position], inFile.direct_aligned aligned position,
        by simp [Engine.served]⟩
    | _ => simp [Label.isDevice] at device
  | stage1 move =>
    cases move with
    | preadOk position | preadFail position =>
      refine ⟨_, by simp only [Engine.request, position],
        inFile.read_aligned ordinary aligned position, fun pages served => ?_⟩
      simp only [Engine.served, position, Option.some.injEq] at served
      subst served
      exact inFile.read_within position
    | _ => simp [Label.isDevice] at device
  | stage2 move =>
    cases move with
    | pwritev position =>
      refine ⟨_, by simp only [Engine.request, position],
        inFile.write_aligned ordinary aligned position, fun pages served => ?_⟩
      simp only [Engine.served, position, Option.some.injEq] at served
      subst served
      exact inFile.write_within ordinary position
    | _ => simp [Label.isDevice] at device
  | closer move => cases move <;> simp [Label.isDevice] at device

/-- A heap in which the application's buffer is not aligned. -/
def someMemory : Memory 1 where
  user := fun _ => 12345
  bounce := fun _ => 8192
  scratch := 12288
  data := fun p => (p + 1) * zoneSize

theorem someMemory_aligned : someMemory.Aligned where
  bounce := fun _ => by simp [someMemory, blockSize]
  scratch := by simp [someMemory, blockSize]
  data := fun p => dvd_trans (show blockSize ∣ zoneSize by decide) (Nat.dvd_mul_left _ _)

/-- The writeback of a page is cut short in the middle of a block and resumed. -/
theorem device_calls_aligned_of_resumed :
    ∃ s s' : Engine 1, Run (Engine.step .standard) FitsFile
        (Engine.init 1 .standard emptyFile (fun _ => 0)) s ∧
      s.s2 = .writing [0] ⟨0, 3⟩ ∧ s.step .standard (.pwritev (.ok zoneSize)) = some s' ∧
      ∃ request, s.request someMemory (.pwritev (.ok zoneSize)) = some request ∧
        request.Aligned ∧ ∀ pages, s.served (.pwritev (.ok zoneSize)) = some pages →
          request.Within s pages := by
  obtain ⟨s, run, position, enabled⟩ :=
    exists_run .standard emptyFile (fun _ => 0) (fun (s : Engine 1) label => FitsFile s label)
      (fun _ _ passed => of_decide_eq_true passed)
      (tinyWrite ++ tinyFill ++ tinyWriteback.dropLast ++ [.pwritev (.ok 5000)])
      (fun s => s.s2 = .writing [0] ⟨0, 3⟩ ∧
        (s.step .standard (.pwritev (.ok zoneSize))).isSome = true)
      (by decide +kernel)
  obtain ⟨s', stepped⟩ := Option.isSome_iff_exists.mp enabled
  exact ⟨s, s', run, position, stepped,
    device_calls_aligned someMemory_aligned run rfl stepped⟩

end NoxDB

import NoxDB.Engine.Schedule
import NoxDB.Engine.Stranded

/-! # What a writeback does to the file

A `pwritev` of Stage-2 replaces bytes of the file by the bytes that pages of the batch
show for them, and all bytes of the pages it completes.  The history records a page
as written exactly then, and while no error is latched a page is freed only after that.
-/

namespace NoxDB

open Function (update)

variable {n : Nat}

/-- File offset `y` lies in the window of page `p`. -/
def Engine.InWindow (s : Engine n) (p : PageId) (y : Nat) : Prop :=
  (s.pages p).base ≤ y ∧ y < (s.pages p).base + zoneSize

/-- What page `p` shows for file offset `y`. -/
def Engine.cellAt (s : Engine n) (p : PageId) (y : Nat) : Cell :=
  (s.pages p).data (y - (s.pages p).base)

variable {cfg : Config} {file : File} {scratch : Nat → UInt8} {s s' : Engine n} {label : Label n}

section Writeback

variable {batch : List PageId} {st : PwritevState} {result : IoResult}

/-- The row of the gather buffer that starts `j` zones past the offset of the call. -/
theorem gather_row {p : PageId} {j x : Nat} (at_ : batch[st.i + j]? = some p) (inside : x < zoneSize) :
    gather ((batch.drop st.i).map fun p => (s.pages p).data) (j * zoneSize + x) =
      (s.pages p).data x := by
  have row : (j * zoneSize + x) / zoneSize = j := by
    rw [Nat.mul_comm, Nat.mul_add_div (by decide), Nat.div_eq_of_lt inside, Nat.add_zero]
  have column : (j * zoneSize + x) % zoneSize = x := by
    rw [Nat.mul_comm, Nat.mul_add_mod, Nat.mod_eq_of_lt inside]
  rw [gather, row, column, List.getElem?_map, List.getElem?_drop, at_]
  rfl

variable (consecutive : Consecutive s (s.pages (batch.headD 0)).base batch)
  (fits : result.Fits ((s.pages (batch.headD 0)).base + st.i * zoneSize)
    ((batch.drop st.i).length * zoneSize))
include consecutive fits

/-- A row whose start landed lies where its page belongs: the offset does not wrap there. -/
theorem base_of_row {p : PageId} {j : Nat} (at_ : batch[st.i + j]? = some p)
    (landed : j * zoneSize < result.landed) :
    (s.pages p).base = (s.pages (batch.headD 0)).base + st.i * zoneSize + j * zoneSize := by
  obtain ⟨-, base⟩ := consecutive (st.i + j) p at_
  have bound : (s.pages (batch.headD 0)).base + st.i * zoneSize + j * zoneSize < word := by
    have top := fits.2.resolve_left (by omega)
    simp only [maxOffset, word] at *
    omega
  rw [base, Nat.add_mul, ← Nat.add_assoc, Nat.mod_eq_of_lt bound]

/-- A byte of the file is as before, or as a page of the batch shows it. -/
theorem byte_of_pwritev (y : Nat) :
    (s.file.pwrite ((s.pages (batch.headD 0)).base + st.i * zoneSize) result.landed fun k =>
        (gather ((batch.drop st.i).map fun p => (s.pages p).data) k).val).byte y = s.file.byte y ∨
      ∃ p ∈ batch.drop st.i, s.InWindow p y ∧
        (s.file.pwrite ((s.pages (batch.headD 0)).base + st.i * zoneSize) result.landed fun k =>
          (gather ((batch.drop st.i).map fun p => (s.pages p).data) k).val).byte y =
            (s.cellAt p y).val := by
  rw [File.pwrite_byte]
  split
  · next landed =>
    right
    -- The row and the column of the byte in the gather buffer.
    obtain ⟨k, rfl⟩ := Nat.exists_eq_add_of_le landed.1
    have inside : k < result.landed := by omega
    have column : k % zoneSize < zoneSize := Nat.mod_lt _ (by decide)
    have split : k / zoneSize * zoneSize + k % zoneSize = k := Nat.div_add_mod' k zoneSize
    have row : k / zoneSize < (batch.drop st.i).length :=
      Nat.div_lt_of_lt_mul (by rw [Nat.mul_comm]; exact lt_of_lt_of_le inside fits.1)
    obtain ⟨p, found⟩ : ∃ p, (batch.drop st.i)[k / zoneSize]? = some p :=
      ⟨_, List.getElem?_eq_getElem row⟩
    have at_ : batch[st.i + k / zoneSize]? = some p := by rw [← List.getElem?_drop, found]
    have base := base_of_row consecutive fits at_ (by omega)
    have cell := gather_row (s := s) at_ column
    rw [split] at cell
    refine ⟨p, List.mem_of_getElem? found, ⟨by rw [base]; omega, by rw [base]; omega⟩, ?_⟩
    rw [Engine.cellAt, base, Nat.add_sub_cancel_left, cell]
    congr 2
    omega
  · exact .inl rfl

/-- The bytes of a row that landed entirely. -/
theorem byte_of_completed {p : PageId} {j : Nat} (at_ : batch[st.i + j]? = some p)
    (landed : (j + 1) * zoneSize ≤ result.landed) {y : Nat} (window : s.InWindow p y) :
    (s.file.pwrite ((s.pages (batch.headD 0)).base + st.i * zoneSize) result.landed fun k =>
      (gather ((batch.drop st.i).map fun p => (s.pages p).data) k).val).byte y =
        (s.cellAt p y).val := by
  rw [Nat.add_mul, Nat.one_mul] at landed
  have base := base_of_row consecutive fits at_ (by simp only [zoneSize] at *; omega)
  obtain ⟨low, high⟩ := window
  rw [base] at low high
  rw [File.pwrite_byte, if_pos (by omega), Engine.cellAt, base]
  have place : y - ((s.pages (batch.headD 0)).base + st.i * zoneSize) =
      j * zoneSize +
        (y - ((s.pages (batch.headD 0)).base + st.i * zoneSize + j * zoneSize)) := by omega
  rw [place, gather_row at_ (by omega)]

end Writeback

/-- The pages a `pwritev` completes are those whose rows landed entirely. -/
theorem row_of_completed {batch : List PageId} {st : PwritevState} {result : IoResult}
    {after : PwritevNext} (outcome : after = pwritevAfter (batch.map fun _ => zoneSize) st result)
    {p : PageId} (completed : p ∈ completedPages batch st after) :
    ∃ j, batch[st.i + j]? = some p ∧ (j + 1) * zoneSize ≤ result.landed := by
  have equal : ∀ l ∈ batch.map fun _ => zoneSize, l = zoneSize := by simp
  rcases pwritevAfter_cases equal outcome with rfl | ⟨next, rfl, -, landed⟩ | ⟨total, rfl, landed⟩
  · simp [completedPages] at completed
  · obtain ⟨j, short, rfl⟩ := List.mem_take_iff_getElem.mp completed
    refine ⟨j, ?_, le_trans (Nat.mul_le_mul_right _ ?_) landed⟩
    · rw [← List.getElem?_drop]
      exact List.getElem?_eq_getElem _
    · omega
  · have completed : p ∈ batch.drop st.i := completed
    obtain ⟨j, short, rfl⟩ := List.mem_iff_getElem.mp completed
    have bound := short
    rw [List.length_drop] at bound
    refine ⟨j, ?_, le_trans (Nat.mul_le_mul_right _ ?_) landed⟩
    · rw [← List.getElem?_drop]
      exact List.getElem?_eq_getElem _
    · rw [List.length_map]
      omega

/-! ## Written pages -/

/-- All bytes of page `p` reached the file. -/
def Written (s : Engine n) (p : PageId) : Prop := .wrote p ∈ s.log

/-- The pages in Stage-2's hands that it has written. -/
def Stage2.finished : Stage2 → List PageId
  | .writing batch st => batch.take st.i
  | .written batch ok | .latch batch ok => if ok then batch else []
  | .freeing batch | .leaving _ _ batch | .decrement batch => batch
  | _ => []

theorem Scheduled.unstranded (scheduled : Scheduled cfg s) (p : PageId) :
    ¬ s.custody.Stranded p := by
  intro stranded
  rcases scheduled.orderly.present p stranded.alive with queued | ⟨o, carried⟩
  · exact stranded.outside queued
  · exact stranded.alone o carried

structure Recorded (s : Engine n) : Prop where
  finished : ∀ p ∈ s.s2.finished, Written s p
  freed : ∀ p, s.freed p = true → Written s p

namespace Recorded

/-- A step that writes no page and frees none. -/
theorem keep (recorded : Recorded s) (grows : ∀ {event}, event ∈ s.log → event ∈ s'.log)
    (fewer : ∀ p ∈ s'.s2.finished, p ∈ s.s2.finished) (freed : s'.freed = s.freed) :
    Recorded s' where
  finished := fun p member => grows (recorded.finished p (fewer p member))
  freed := fun p gone => grows (recorded.freed p (freed ▸ gone))

theorem finished_pwritev (recorded : Recorded s) {batch : List PageId} {st : PwritevState}
    {result : IoResult} (position : s.s2 = .writing batch st) {after : PwritevNext}
    (outcome : after = pwritevAfter (batch.map fun _ => zoneSize) st result) :
    ∀ p ∈ (afterPwritev batch after).finished, Written s p ∨ p ∈ completedPages batch st after := by
  have behind : ∀ p ∈ batch.take st.i, Written s p := fun p member =>
    recorded.finished p (by rw [position]; exact member)
  have equal : ∀ l ∈ batch.map fun _ => zoneSize, l = zoneSize := by simp
  intro p member
  rcases pwritevAfter_cases equal outcome with rfl | ⟨next, rfl, ahead, -⟩ | ⟨total, rfl, -⟩
  · simp [afterPwritev, Stage2.finished] at member
  · have split : batch.take next.i = batch.take st.i ++ (batch.drop st.i).take (next.i - st.i) := by
      rw [← List.take_add, Nat.add_sub_of_le ahead]
    have member : p ∈ batch.take next.i := member
    rw [split, List.mem_append] at member
    exact member.imp_left (behind p)
  · have inBatch : p ∈ batch.take st.i ++ batch.drop st.i := by
      rw [List.take_append_drop]
      simp only [afterPwritev, Stage2.finished] at member
      split at member
      · exact member
      · simp at member
    rw [List.mem_append] at inBatch
    exact inBatch.imp_left (behind p)

theorem stage2 (recorded : Recorded s) (move : Stage2Move s label s') (clean : s'.ioErr = false) :
    Recorded s' := by
  have grows : ∀ {event : Event n}, event ∈ s.log → event ∈ s'.log := by
    intro event member
    have original : Move .standard s label s' := .stage2 move
    exact log_mono original member
  have keep := recorded.keep grows
  cases move with
  | @latch batch ok position =>
    have fine : ok = true := by simpa using (Bool.or_eq_false_iff.mp clean).2
    exact keep (fun p member => by rw [position, fine]; exact member) rfl
  | @free p batch position =>
    have written : ∀ q ∈ p :: batch, Written s q := fun q member =>
      recorded.finished q (by rw [position]; exact member)
    refine ⟨fun q member => grows (written q (List.mem_cons_of_mem _ member)), fun q gone => grows ?_⟩
    by_cases same : q = p
    · exact written q (same ▸ List.mem_cons_self)
    · exact recorded.freed q (by simpa [same] using gone)
  | @pwritev batch st result position fits after outcome =>
    refine ⟨fun p member => ?_, fun p gone => grows (recorded.freed p gone)⟩
    rcases recorded.finished_pwritev position outcome p member with before | completed
    · exact grows before
    · have recordedNow : (Event.wrote p : Event n) ∈
          ((completedPages batch st after).map Event.wrote).reverse :=
        List.mem_reverse.mpr (List.mem_map_of_mem completed)
      exact List.mem_append_left _ recordedNow
  | written position | decrement position | leave position =>
    exact keep (fun p member => by rw [position]; exact member) rfl
  | writeStart position =>
    exact keep (fun p member => by simp [Stage2.finished, PwritevState.init] at member) rfl
  | _ => exact keep (fun p member => by simp [Stage2.finished] at member) rfl

theorem init (cfg : Config) (file : File) (scratch : Nat → UInt8) :
    Recorded (Engine.init n cfg file scratch) where
  finished := by simp [Engine.init, Stage2.finished]
  freed := by simp [Engine.init]

theorem step (recorded : Recorded s) (sound : Sound cfg s)
    (present : ∀ p, ¬ s.custody.Stranded p) (move : Move cfg s label s')
    (clean : s'.ioErr = false) : Recorded s' := by
  have keep := recorded.keep (log_mono move)
  cases move with
  | stage2 move => exact recorded.stage2 move clean
  | fg move =>
    have same : s'.s2 = s.s2 ∧ s'.freed = s.freed := by cases move <;> exact ⟨rfl, rfl⟩
    exact keep (fun p member => by rwa [same.1] at member) same.2
  | stage1 move =>
    have same : s'.s2 = s.s2 ∧ s'.freed = s.freed := by cases move <;> exact ⟨rfl, rfl⟩
    exact keep (fun p member => by rwa [same.1] at member) same.2
  | closer move =>
    have drained := (swept_of sound.walk sound.phases).drained
    cases move with
    | @destroy err position =>
      -- No page is left to be freed with the index.
      obtain ⟨idle, empty⟩ := drained err position
      have dead : ∀ p, ¬ s.custody.Alive p := fun p alive => present p
        { alive
          outside := by simp [empty]
          alone := fun o => by simp [idle, Role.carried] }
      refine keep (fun p member => member) (funext fun p => ?_)
      dsimp only
      cases among : s.resident.contains p with
      | false => exact Bool.or_false _
      | true =>
        obtain ⟨b, -, linked⟩ := List.mem_flatMap.mp (by simpa using among : p ∈ s.resident)
        exact absurd (sound.owned.indexed b p linked).1 (dead p)
    | _ => exact keep (fun p member => member) rfl

end Recorded

end NoxDB

import NoxDB.Engine.LastWriter
import NoxDB.ScrapPage.Layout

/-! # The split of a write into chunks

The scrap path of `nox_write` in the machine's own words: a 64-bit offset that wraps, a 64-bit
remainder, and chunks computed with 32 bits and a mask.  Nothing is lost in these widths
(`nextChunk_spec`), so the chunks are those of the engine's model, and the only thing that can go
wrong is that the running offset passes `2^64`.
-/

namespace NoxDB

open Layout (zoneWord)
open Function (update)
open Library.Runs

/-! ## The loop -/

/-- What `nox_write` hands to `scrap_write_chunk`; `src` is the position in the user buffer. -/
structure Chunk where
  base : UInt64
  intra : UInt32
  src : Nat
  len : UInt32
deriving DecidableEq, Repr

/-- `NOX_PAGE_BASE` -/
def noxPageBase (offset : UInt64) : UInt64 := offset &&& ~~~(zoneWord.toUInt64 - 1)

/-- The room left in the page of `cur`. -/
def roomAt (cur : UInt64) : UInt32 := zoneWord - (cur - noxPageBase cur).toUInt32

/-- One pass of the loop up to the call of `scrap_write_chunk`. -/
def nextChunk (cur remaining : UInt64) (src : Nat) : Chunk where
  base := noxPageBase cur
  intra := (cur - noxPageBase cur).toUInt32
  src := src
  len := if remaining < (roomAt cur).toUInt64 then remaining.toUInt32 else roomAt cur

theorem nextChunk_src (cur remaining : UInt64) (src : Nat) :
    (nextChunk cur remaining src).src = src := rfl

theorem noxPageBase_toNat (offset : UInt64) : (noxPageBase offset).toNat = pageBase offset.toNat := by
  have mask : (~~~(zoneWord.toUInt64 - 1)).toNat = 2 ^ 18 * (2 ^ 46 - 1) := by decide
  have split : pageBase offset.toNat = 2 ^ 18 * (offset.toNat / 2 ^ 18) := by
    have whole := Nat.div_add_mod offset.toNat (2 ^ 18)
    simp only [pageBase, zoneSize] at *
    omega
  rw [noxPageBase, UInt64.toNat_and, mask, split]
  refine Nat.eq_of_testBit_eq fun i => ?_
  rw [Nat.testBit_and, Nat.testBit_two_pow_mul, Nat.testBit_two_pow_mul,
    Nat.testBit_two_pow_sub_one, Nat.testBit_div_two_pow]
  by_cases low : 18 ≤ i
  · rw [Nat.sub_add_cancel low]
    by_cases high : i < 64
    · simp [low, show i - 18 < 46 by omega]
    · have zero : offset.toNat.testBit i = false :=
        Nat.testBit_lt_two_pow (lt_of_lt_of_le offset.toNat_lt (Nat.pow_le_pow_right (by decide) (by omega)))
      simp [zero]
  · simp [low]

theorem intra_toNat (cur : UInt64) :
    (cur - noxPageBase cur).toUInt32.toNat = cur.toNat % zoneSize := by
  have base := noxPageBase_toNat cur
  have split := pageBase_add_mod cur.toNat
  have small : cur.toNat % zoneSize < zoneSize := Nat.mod_lt _ (by decide)
  have below : noxPageBase cur ≤ cur := UInt64.le_iff_toNat_le.mpr (by rw [base]; exact pageBase_le _)
  rw [UInt64.toNat_toUInt32, UInt64.toNat_sub_of_le _ _ below, base, Nat.mod_eq_of_lt]
  · omega
  · simp only [zoneSize] at *
    omega

theorem roomAt_toNat (cur : UInt64) : (roomAt cur).toNat = zoneSize - cur.toNat % zoneSize := by
  have intra := intra_toNat cur
  have small : cur.toNat % zoneSize < zoneSize := Nat.mod_lt _ (by decide)
  have zone : zoneWord.toNat = zoneSize := rfl
  rw [roomAt, UInt32.toNat_sub_of_le, intra, zone]
  rw [UInt32.le_iff_toNat_le, intra, zone]
  exact small.le

/-- No width loses anything. -/
theorem nextChunk_len (cur remaining : UInt64) (src : Nat) :
    (nextChunk cur remaining src).len.toNat =
      if remaining.toNat < zoneSize - cur.toNat % zoneSize then remaining.toNat
      else zoneSize - cur.toNat % zoneSize := by
  have room := roomAt_toNat cur
  simp only [nextChunk]
  by_cases short : remaining < (roomAt cur).toUInt64
  · have less := UInt64.lt_iff_toNat_lt.mp short
    rw [UInt32.toNat_toUInt64, room] at less
    rw [if_pos short, if_pos less, UInt64.toNat_toUInt32, Nat.mod_eq_of_lt]
    simp only [zoneSize] at *
    omega
  · have more : ¬ remaining.toNat < zoneSize - cur.toNat % zoneSize := by
      rwa [UInt64.lt_iff_toNat_lt, UInt32.toNat_toUInt64, room] at short
    rw [if_neg short, if_neg more, room]

theorem nextChunk_bounds {cur remaining : UInt64} (src : Nat) (more : remaining ≠ 0) :
    1 ≤ (nextChunk cur remaining src).len.toNat ∧
      (nextChunk cur remaining src).len.toNat ≤ remaining.toNat := by
  have small : cur.toNat % zoneSize < zoneSize := Nat.mod_lt _ (by decide)
  have positive : remaining.toNat ≠ 0 := fun zero => more (UInt64.toNat_inj.mp zero)
  rw [nextChunk_len]
  split <;> omega

theorem remaining_toNat {cur remaining : UInt64} (src : Nat) (more : remaining ≠ 0) :
    (remaining - (nextChunk cur remaining src).len.toUInt64).toNat =
      remaining.toNat - (nextChunk cur remaining src).len.toNat := by
  have bounds := @nextChunk_bounds cur remaining src more
  rw [UInt64.toNat_sub_of_le, UInt32.toNat_toUInt64]
  rw [UInt64.le_iff_toNat_le, UInt32.toNat_toUInt64]
  exact bounds.2

theorem remaining_lt {cur remaining : UInt64} (src : Nat) (more : remaining ≠ 0) :
    (remaining - (nextChunk cur remaining src).len.toUInt64).toNat < remaining.toNat := by
  have bounds := @nextChunk_bounds cur remaining src more
  rw [remaining_toNat src more]
  omega

/-- The loop over a way to cut off the next chunk that leaves less to do. -/
def chunkLoop (cut : UInt64 → UInt64 → Nat → Chunk)
    (shrinks : ∀ (cur remaining : UInt64) (src : Nat), remaining ≠ 0 →
      (remaining - (cut cur remaining src).len.toUInt64).toNat < remaining.toNat)
    (deliver : Chunk → Bool) (cur remaining : UInt64) (src : Nat) : Bool × List Chunk :=
  if _more : remaining = 0 then (true, [])
  else if deliver (cut cur remaining src) then
    match chunkLoop cut shrinks deliver (cur + (cut cur remaining src).len.toUInt64)
        (remaining - (cut cur remaining src).len.toUInt64)
        (src + (cut cur remaining src).len.toNat) with
    | (ok, rest) => (ok, cut cur remaining src :: rest)
  else (false, [cut cur remaining src])
termination_by remaining.toNat
decreasing_by exact shrinks cur remaining src _more

/-- The loop of `nox_write`: whether it returned 0, and the chunks it passed on.  `deliver` says
whether `scrap_write_chunk` returned 0. -/
def splitLoop : (Chunk → Bool) → UInt64 → UInt64 → Nat → Bool × List Chunk :=
  chunkLoop nextChunk fun _ _ src more => remaining_lt src more

theorem splitLoop_zero (deliver : Chunk → Bool) (cur : UInt64) (src : Nat) :
    splitLoop deliver cur 0 src = (true, []) := by
  rw [splitLoop, chunkLoop, dif_pos rfl]

theorem splitLoop_pass {deliver : Chunk → Bool} {cur remaining : UInt64} {src : Nat} {chunk : Chunk}
    (more : remaining ≠ 0) (next : nextChunk cur remaining src = chunk)
    (delivered : deliver chunk = true) :
    splitLoop deliver cur remaining src =
      ((splitLoop deliver (cur + chunk.len.toUInt64) (remaining - chunk.len.toUInt64)
          (src + chunk.len.toNat)).1,
        chunk :: (splitLoop deliver (cur + chunk.len.toUInt64) (remaining - chunk.len.toUInt64)
          (src + chunk.len.toNat)).2) := by
  rw [splitLoop, chunkLoop, dif_neg more, next, if_pos delivered]

theorem splitLoop_refused {deliver : Chunk → Bool} {cur remaining : UInt64} {src : Nat}
    {chunk : Chunk} (more : remaining ≠ 0) (next : nextChunk cur remaining src = chunk)
    (refused : deliver chunk = false) :
    splitLoop deliver cur remaining src = (false, [chunk]) := by
  rw [splitLoop, chunkLoop, dif_neg more, next, if_neg (by simp [refused])]

theorem splitLoop_accepted {deliver : Chunk → Bool} (all : ∀ chunk, deliver chunk = true)
    (cur remaining : UInt64) (src : Nat) : (splitLoop deliver cur remaining src).1 = true := by
  induction left : remaining.toNat using Nat.strong_induction_on generalizing cur remaining src with
  | _ left inductionHypothesis =>
    subst left
    by_cases more : remaining = 0
    · rw [more, splitLoop_zero]
    · have less := @remaining_lt cur remaining src more
      obtain ⟨chunk, known⟩ : ∃ chunk, nextChunk cur remaining src = chunk := ⟨_, rfl⟩
      rw [known] at less
      rw [splitLoop_pass more known (all chunk)]
      exact inductionHypothesis _ less _ _ _ rfl

/-! ## The chunks of a call -/

/-- The bytes of the user buffer a chunk carries. -/
def Chunk.reads (chunk : Chunk) : List Nat := List.range' chunk.src chunk.len.toNat

/-- The chunk the engine cuts off `call` once `chunk.src` bytes are delivered. -/
structure Chunk.Cut (call : Call) (chunk : Chunk) : Prop where
  inside : chunk.src < call.size
  base : chunk.base.toNat = call.base chunk.src
  intra : chunk.intra.toNat = call.intra chunk.src
  len : chunk.len.toNat = call.chunk chunk.src

/-- The variables of the loop once `src` bytes are delivered. -/
structure Cursor (call : Call) (cur remaining : UInt64) (src : Nat) : Prop where
  cur : cur.toNat = call.cur src
  remaining : remaining.toNat = call.size - src

namespace Cursor

variable {call : Call} {cur remaining : UInt64} {src : Nat}

theorem cut (cursor : Cursor call cur remaining src) (more : remaining ≠ 0) :
    (nextChunk cur remaining src).Cut call := by
  have positive : remaining.toNat ≠ 0 := fun zero => more (UInt64.toNat_inj.mp zero)
  have start := cursor.cur
  have left := cursor.remaining
  have intra : call.intra src = cur.toNat % zoneSize := by
    have split := pageBase_add_mod cur.toNat
    rw [Call.intra, Call.base, ← start]
    omega
  refine ⟨show src < call.size by omega, ?_, ?_, ?_⟩
  · rw [nextChunk, noxPageBase_toNat, start]
    rfl
  · rw [nextChunk, intra_toNat]
    exact intra.symm
  · rw [nextChunk_len, left, ← intra]
    rfl

theorem next (cursor : Cursor call cur remaining src) (more : remaining ≠ 0) :
    Cursor call (cur + (nextChunk cur remaining src).len.toUInt64)
      (remaining - (nextChunk cur remaining src).len.toUInt64)
      (src + (nextChunk cur remaining src).len.toNat) := by
  constructor
  · rw [UInt64.toNat_add, UInt32.toNat_toUInt64, cursor.cur, Call.cur, Call.cur, Nat.mod_add_mod,
      Nat.add_assoc]
  · rw [remaining_toNat src more, cursor.remaining, Nat.sub_sub]

end Cursor

theorem splitLoop_spec {call : Call} (deliver : Chunk → Bool) {cur remaining : UInt64} {src : Nat}
    (cursor : Cursor call cur remaining src) :
    (∀ chunk ∈ (splitLoop deliver cur remaining src).2, chunk.Cut call) ∧
      (splitLoop deliver cur remaining src).2.flatMap Chunk.reads <+:
        List.range' src (call.size - src) ∧
      ((splitLoop deliver cur remaining src).1 = true →
        (splitLoop deliver cur remaining src).2.flatMap Chunk.reads =
          List.range' src (call.size - src)) := by
  induction left : remaining.toNat using Nat.strong_induction_on generalizing cur remaining src with
  | _ left inductionHypothesis =>
    subst left
    by_cases more : remaining = 0
    · subst more
      have done : call.size - src = 0 := cursor.remaining.symm
      rw [splitLoop_zero, done]
      simp
    · have cut := cursor.cut more
      have less := @remaining_lt cur remaining src more
      have next := cursor.next more
      have bounds := @nextChunk_bounds cur remaining src more
      have there := nextChunk_src cur remaining src
      obtain ⟨chunk, known⟩ : ∃ chunk, nextChunk cur remaining src = chunk := ⟨_, rfl⟩
      rw [known] at cut less next bounds there
      have whole : List.range' src (call.size - src) =
          chunk.reads ++ List.range' (src + chunk.len.toNat) (call.size - (src + chunk.len.toNat)) := by
        rw [Chunk.reads, there, List.range'_append_1]
        congr 1
        rw [cursor.remaining] at bounds
        omega
      cases delivered : deliver chunk with
      | false =>
        rw [splitLoop_refused more known delivered, whole]
        refine ⟨?_, ?_, by simp⟩
        · simpa using cut
        · simp
      | true =>
        obtain ⟨cuts, part, all⟩ := inductionHypothesis _ less next rfl
        rw [splitLoop_pass more known delivered, whole]
        refine ⟨?_, ?_, fun accepted => ?_⟩
        · simpa using ⟨cut, cuts⟩
        · simpa using part
        · simpa using all accepted

/-! ## The range of a call -/

/-- A write stays in its range: the chunks fit their pages, they read the user buffer in order
without gap or repeat, every byte goes to the page and the position of its file offset, and an
accepted write delivers nothing outside its range. -/
structure InRange (offset size : UInt64) (result : Bool × List Chunk) : Prop where
  sized : ∀ chunk ∈ result.2,
    1 ≤ chunk.len.toNat ∧ chunk.intra.toNat + chunk.len.toNat ≤ zoneSize
  inOrder : result.2.flatMap Chunk.reads <+: List.range size.toNat
  complete : result.1 = true → result.2.flatMap Chunk.reads = List.range size.toNat
  placed : ∀ chunk ∈ result.2, ∀ i ∈ chunk.reads,
    chunk.base.toNat = pageBase (offset.toNat + i) ∧
      chunk.intra.toNat + (i - chunk.src) = (offset.toNat + i) % zoneSize
  confined : result.1 = true → ∀ chunk ∈ result.2, ∀ i ∈ chunk.reads,
    offset.toNat ≤ chunk.base.toNat + chunk.intra.toNat + (i - chunk.src) ∧
      chunk.base.toNat + chunk.intra.toNat + (i - chunk.src) < offset.toNat + size.toNat

/-- The call with these arguments, whatever its buffer holds. -/
def callOf (offset size : UInt64) : Call :=
  ⟨fun _ => 0, size.toNat, offset.toNat, size.toNat_lt, offset.toNat_lt⟩

theorem cursor_zero (offset size : UInt64) : Cursor (callOf offset size) offset size 0 :=
  ⟨(Nat.mod_eq_of_lt offset.toNat_lt).symm, rfl⟩

/-- Where the running offset does not wrap, a byte goes to its file offset. -/
theorem Chunk.Cut.place {call : Call} {chunk : Chunk} (cut : chunk.Cut call)
    (fits : call.offset + call.size ≤ word) {i : Nat} (among : i ∈ chunk.reads) :
    i < call.size ∧ chunk.base.toNat + chunk.intra.toNat + (i - chunk.src) = call.offset + i ∧
      chunk.base.toNat = pageBase (call.offset + i) := by
  obtain ⟨low, high⟩ := List.mem_range'_1.mp among
  have inside := cut.inside
  have bound := call.done_add_chunk_le chunk.src inside.le
  have room := call.intra_add_chunk_le chunk.src
  have start := call.base_add_intra chunk.src
  have unwrapped : call.cur chunk.src = call.offset + chunk.src := Nat.mod_eq_of_lt (by omega)
  rw [cut.len] at high
  have there : call.base chunk.src + call.intra chunk.src + (i - chunk.src) = call.offset + i := by
    omega
  refine ⟨by omega, by rw [cut.base, cut.intra, there], ?_⟩
  rw [cut.base]
  refine base_unique (call.base_aligned _) (zoneSize_dvd_pageBase _) ?_ ?_
    (pageBase_le (call.offset + i)) (lt_pageBase_add _)
  · omega
  · omega

/-- For every offset and every size, and whichever of its chunks are accepted, a write stays in
its range exactly when the range ends at or below `2^64`. -/
theorem split_in_range_iff (offset size : UInt64) :
    (∀ deliver, InRange offset size (splitLoop deliver offset size 0)) ↔
      offset.toNat + size.toNat ≤ word := by
  constructor
  · intro inRange
    -- The byte that would go to offset 2^64 has no page.
    by_contra past
    have below : offset.toNat < word := offset.toNat_lt
    have all := inRange fun _ => true
    have accepted := splitLoop_accepted (fun _ => rfl) offset size 0
    have read : word - offset.toNat ∈
        (splitLoop (fun _ => true) offset size 0).2.flatMap Chunk.reads := by
      rw [all.complete accepted, List.mem_range]
      omega
    obtain ⟨chunk, member, among⟩ := List.mem_flatMap.mp read
    have base := (all.placed chunk member _ among).1
    have top : pageBase (offset.toNat + (word - offset.toNat)) = word := by
      rw [Nat.add_sub_of_le below.le]
      decide
    have limit : chunk.base.toNat < word := chunk.base.toNat_lt
    omega
  · intro fits deliver
    obtain ⟨cuts, part, whole⟩ := splitLoop_spec deliver (cursor_zero offset size)
    have range : List.range' 0 ((callOf offset size).size - 0) = List.range size.toNat :=
      List.range_eq_range'.symm
    rw [range] at part whole
    refine ⟨fun chunk member => ?_, part, whole, fun chunk member i among => ?_,
      fun _ chunk member i among => ?_⟩
    · have cut := cuts chunk member
      rw [cut.len, cut.intra]
      exact ⟨Call.chunk_pos cut.inside, Call.intra_add_chunk_le _ _⟩
    · obtain ⟨inside, there, base⟩ := (cuts chunk member).place fits among
      have split := pageBase_add_mod ((callOf offset size).offset + i)
      refine ⟨base, ?_⟩
      change chunk.intra.toNat + (i - chunk.src) = ((callOf offset size).offset + i) % zoneSize
      omega
    · obtain ⟨inside, there, -⟩ := (cuts chunk member).place fits among
      rw [there]
      exact ⟨Nat.le_add_right _ _, Nat.add_lt_add_left inside _⟩

/-- Two bytes at the last offset: both are accepted, and the second one goes to offset 0. -/
theorem two_bytes_at_the_end_wrap :
    (callOf 0xFFFFFFFFFFFFFFFF 2).isDirect = false ∧
      splitLoop (fun _ => true) 0xFFFFFFFFFFFFFFFF 2 0 =
        (true, [⟨0xFFFFFFFFFFFC0000, 0x3FFFF, 0, 1⟩, ⟨0, 0, 1, 1⟩]) ∧
      ¬ InRange 0xFFFFFFFFFFFFFFFF 2 (splitLoop (fun _ => true) 0xFFFFFFFFFFFFFFFF 2 0) := by
  have loop : splitLoop (fun _ => true) 0xFFFFFFFFFFFFFFFF 2 0 =
      (true, [⟨0xFFFFFFFFFFFC0000, 0x3FFFF, 0, 1⟩, ⟨0, 0, 1, 1⟩]) := by
    rw [@splitLoop_pass (fun _ => true) 0xFFFFFFFFFFFFFFFF 2 0 ⟨0xFFFFFFFFFFFC0000, 0x3FFFF, 0, 1⟩
      (by decide) (by decide +kernel) rfl]
    change ((splitLoop (fun _ => true) 0 1 1).1, _ :: (splitLoop (fun _ => true) 0 1 1).2) = _
    rw [@splitLoop_pass (fun _ => true) 0 1 1 ⟨0, 0, 1, 1⟩ (by decide) (by decide +kernel) rfl]
    change ((splitLoop (fun _ => true) 1 0 2).1, _ :: _ :: (splitLoop (fun _ => true) 1 0 2).2) = _
    rw [splitLoop_zero]
  refine ⟨by decide, loop, fun inRange => ?_⟩
  rw [loop] at inRange
  have second := (inRange.confined rfl ⟨0, 0, 1, 1⟩ (by simp) 1 (by simp [Chunk.reads])).1
  revert second
  decide

/-! ## The engine makes these chunks -/

/-- What is delivered before the chunk with number `k`. -/
def Call.startOf (call : Call) : Nat → Nat
  | 0 => 0
  | k + 1 => call.startOf k + call.chunk (call.startOf k)

theorem Call.startOf_mono (call : Call) : Monotone call.startOf :=
  monotone_nat_of_le_succ fun _ => Nat.le_add_right _ _

/-- A chunk starts at `src`. -/
def Call.Starts (call : Call) (src : Nat) : Prop := src < call.size ∧ ∃ k, src = call.startOf k

theorem Call.Starts.next {call : Call} {done : Nat} (starts : call.Starts done)
    (more : done + call.chunk done < call.size) : call.Starts (done + call.chunk done) := by
  obtain ⟨-, k, rfl⟩ := starts
  exact ⟨more, k + 1, rfl⟩

/-- Chunks do not overlap. -/
theorem Call.Starts.apart {call : Call} {first second : Nat} (left : call.Starts first)
    (right : call.Starts second) (before : first < second + call.chunk second) : first ≤ second := by
  obtain ⟨-, i, rfl⟩ := left
  obtain ⟨-, j, rfl⟩ := right
  have next : call.startOf i < call.startOf (j + 1) := before
  refine call.startOf_mono (Nat.lt_succ_iff.mp ?_)
  exact lt_of_not_ge fun later => absurd (call.startOf_mono later) (Nat.not_le.mpr next)

theorem splitLoop_starts {call : Call} (deliver : Chunk → Bool) {cur remaining : UInt64} {k : Nat}
    (cursor : Cursor call cur remaining (call.startOf k)) :
    ∀ chunk ∈ (splitLoop deliver cur remaining (call.startOf k)).2, call.Starts chunk.src := by
  induction left : remaining.toNat using Nat.strong_induction_on generalizing cur remaining k with
  | _ left inductionHypothesis =>
    subst left
    by_cases more : remaining = 0
    · simp [more, splitLoop_zero]
    · have cut := cursor.cut more
      have less := @remaining_lt cur remaining (call.startOf k) more
      have next := cursor.next more
      have there := nextChunk_src cur remaining (call.startOf k)
      obtain ⟨first, known⟩ : ∃ first, nextChunk cur remaining (call.startOf k) = first := ⟨_, rfl⟩
      rw [known] at cut less next there
      have starts : call.Starts first.src := ⟨cut.inside, k, there⟩
      cases delivered : deliver first with
      | false =>
        rw [splitLoop_refused more known delivered]
        simpa using starts
      | true =>
        have step : call.startOf k + first.len.toNat = call.startOf (k + 1) := by
          rw [cut.len, there]
          rfl
        rw [step] at next
        have rest := inductionHypothesis _ less next rfl
        rw [splitLoop_pass more known delivered, step]
        simpa using ⟨starts, rest⟩

/-- The chunks an accepted call makes. -/
def Call.chunks (call : Call) : List Chunk :=
  (splitLoop (fun _ => true) (.ofNat call.offset) (.ofNat call.size) 0).2

theorem Call.cursor (call : Call) : Cursor call (.ofNat call.offset) (.ofNat call.size) 0 := by
  have offset := call.offset_lt
  have size := call.size_lt
  constructor
  · rw [UInt64.toNat_ofNat', Call.cur, Nat.add_zero]
  · rw [UInt64.toNat_ofNat', Nat.mod_eq_of_lt size, Nat.sub_zero]

theorem Call.cut_of_mem {call : Call} {chunk : Chunk} (member : chunk ∈ call.chunks) :
    chunk.Cut call ∧ call.Starts chunk.src :=
  ⟨(splitLoop_spec _ call.cursor).1 chunk member,
    @splitLoop_starts call (fun _ => true) _ _ 0 call.cursor chunk member⟩

/-- Every chunk of the engine is one of the loop. -/
theorem Call.Starts.mem_chunks {call : Call} {src : Nat} (starts : call.Starts src) :
    ∃ chunk ∈ call.chunks, chunk.src = src := by
  have whole := (splitLoop_spec (fun _ => true) call.cursor).2.2
    (splitLoop_accepted (fun _ => rfl) _ _ _)
  have read : src ∈ call.chunks.flatMap Chunk.reads := by
    rw [Call.chunks, whole, List.mem_range'_1]
    exact ⟨Nat.zero_le _, by have := starts.1; omega⟩
  obtain ⟨chunk, member, among⟩ := List.mem_flatMap.mp read
  obtain ⟨cut, other⟩ := Call.cut_of_mem member
  obtain ⟨low, high⟩ := List.mem_range'_1.mp among
  rw [cut.len] at high
  exact ⟨chunk, member, le_antisymm low (starts.apart other high)⟩

section Engine

variable {n : Nat} {cfg : Config} {file : File} {scratch : Nat → UInt8} {s s' : Engine n}
  {label : Label n}

/-- The chunk of `call` at `src` was merged into a page of its base. -/
def Merged (s : Engine n) (call : Call) (src : Nat) : Prop :=
  ∃ p < s.created, (s.pages p).base = call.base src ∧
    .merged p (call.cur src) (call.chunk src) (call.cells src) ∈ s.log

theorem Merged.mono {call : Call} {src : Nat} (sound : Sound cfg s) (move : Move cfg s label s')
    (merged : Merged s call src) : Merged s' call src := by
  obtain ⟨p, current, base, member⟩ := merged
  exact ⟨p, lt_of_lt_of_le current (created_mono move),
    (base_stable (sound.refines move) p current).trans base, log_mono move member⟩

/-- The chunk a call stands at is one of its chunks, and the ones before it are merged. -/
def Fg.Delivering (s : Engine n) : Fg → Prop
  | .idle => True
  | .direct call => call.isDirect = true
  | .scrap call done pc => call.Starts done ∧ (∀ src < done, call.Starts src → Merged s call src) ∧
      (pc.merged = true → Merged s call done)

structure Delivering (s : Engine n) : Prop where
  active : ∀ t, (s.fg t).Delivering s
  accepted : ∀ t call, .returned t call .ok ∈ s.log → call.isDirect = false →
    ∀ src, call.Starts src → Merged s call src

/-- A step inside one pass of the loop. -/
theorem Fg.Delivering.moved {call : Call} {done : Nat} {pc pc' : ChunkPc} (sound : Sound cfg s)
    (move : Move cfg s label s') (delivering : (Fg.scrap call done pc).Delivering s)
    (same : pc'.merged = true → pc.merged = true) : (Fg.scrap call done pc').Delivering s' :=
  ⟨delivering.1, fun src early starts => (delivering.2.1 src early starts).mono sound move,
    fun merged => (delivering.2.2 (same merged)).mono sound move⟩

/-- What is merged once the chunk at `done` is. -/
theorem merged_through {call : Call} {done : Nat} (starts : call.Starts done)
    (earlier : ∀ src < done, call.Starts src → Merged s call src) (here : Merged s call done) :
    ∀ src < done + call.chunk done, call.Starts src → Merged s call src := by
  intro src before other
  rcases (other.apart starts before).lt_or_eq with early | same
  · exact earlier src early other
  · exact same ▸ here

theorem Delivering.own (delivering : Delivering s) (sound : Sound cfg s) (aimed : Aimed s)
    (move : FgMove cfg s label s') {t : Fin n} (mine : label.thread = some t) :
    (s'.fg t).Delivering s' := by
  have moving : Move cfg s label s' := .fg move
  have here := delivering.active t
  cases move with
  | callZero position =>
    obtain rfl := Option.some.inj mine
    simp only [position]
    trivial
  | callDirect position running nonempty direct =>
    obtain rfl := Option.some.inj mine
    simpa [Fg.Delivering] using direct
  | @callScrap u call position running nonempty scrap =>
    obtain rfl := Option.some.inj mine
    simp only [Function.update_self]
    exact ⟨⟨Nat.pos_of_ne_zero nonempty, 0, rfl⟩, fun src early => absurd early (Nat.not_lt_zero _),
      by simp [ChunkPc.merged]⟩
  | oomPage position | oomDirect position | pwrite position | unlockDone position =>
    obtain rfl := Option.some.inj mine
    simp only [Function.update_self]
    trivial
  | gatePass position | gatePark position | parkedPass position | lookupFound position
  | alloc position | lockPage position | unlockRetry position | detach position =>
    obtain rfl := Option.some.inj mine
    rw [position] at here
    simp only [Function.update_self]
    exact here.moved sound moving (by simp [ChunkPc.merged])
  | @partialInc u call done p after position | @partialPush u call done p after position
  | @fullInc u call done p after position | @fullEnter u call done p after position
  | @fullPush u call done p after position =>
    obtain rfl := Option.some.inj mine
    rw [position] at here
    simp only [Function.update_self]
    exact here.moved sound moving (by cases after <;> simp [ChunkPc.merged])
  | unlockMore position more =>
    obtain rfl := Option.some.inj mine
    rw [position] at here
    simp only [Function.update_self]
    obtain ⟨starts, earlier, merged⟩ := here
    refine ⟨starts.next more, fun src before other => ?_, by simp [ChunkPc.merged]⟩
    exact (merged_through starts earlier (merged rfl) src before other).mono sound moving
  | @decide u call done p created position decision decided =>
    obtain rfl := Option.some.inj mine
    have base := aimed u call done _ p position rfl
    have current := target_lt_created sound.owned position rfl
    rw [position] at here
    simp only [Function.update_self]
    refine ⟨here.1, fun src early starts => (here.2.1 src early starts).mono sound moving,
      fun merged => ⟨p, current, ?_, ?_⟩⟩
    · rw [← base]
      exact base_stable (sound.refines moving) p current
    · have accepted : decision.merged = true := by
        have way := Decided.of_eq decided
        cases way <;> simp_all [Decision.next, ChunkPc.merged]
      exact List.mem_append_left _ (by simp [chunkEvents, accepted])

/-- A step adds the return of a call only where the call ends. -/
theorem accepted_step (delivering : Delivering s) (move : Move cfg s label s') {t : Fin n}
    {call : Call} (member : Event.returned t call .ok ∈ s'.log) (scrap : call.isDirect = false)
    {src : Nat} (starts : call.Starts src) : Merged s call src := by
  have old : (∃ events, s'.log = events ++ s.log ∧ Event.returned t call .ok ∉ events) →
      Merged s call src := by
    rintro ⟨events, log, absent⟩
    rw [log] at member
    exact delivering.accepted t call ((List.mem_append.mp member).resolve_left absent) scrap src
      starts
  have quiet : (∃ events, s'.log = events ++ s.log ∧
      ∀ event ∈ events, event.background = true) → Merged s call src := by
    rintro ⟨events, log, background⟩
    refine old ⟨events, log, fun among => ?_⟩
    simpa [Event.background] using background _ among
  cases move with
  | stage1 move => exact quiet (background_of_stage1 move)
  | stage2 move => exact quiet (background_of_stage2 move)
  | closer move => exact quiet (background_of_closer move)
  | fg move =>
    have here := delivering.active t
    cases move with
    | callZero position running empty =>
      rcases List.mem_cons.mp member with new | earlier
      · obtain ⟨rfl, rfl, -⟩ := Event.returned.inj new
        exact absurd starts.1 (by omega)
      · exact delivering.accepted t call earlier scrap src starts
    -- The call ends with the chunk that reaches its end, so all the earlier ones were merged.
    | @unlockDone u other done p position last =>
      rcases List.mem_cons.mp member with new | earlier
      · obtain ⟨rfl, rfl, -⟩ := Event.returned.inj new
        rw [position] at here
        obtain ⟨cursor, before, merged⟩ := here
        have inside := starts.1
        exact merged_through cursor before (merged rfl) src (by omega) starts
      · exact delivering.accepted t call earlier scrap src starts
    -- A direct call is no scrap-path call.
    | pwrite position fits =>
      rcases List.mem_cons.mp member with new | earlier
      · obtain ⟨rfl, rfl, -⟩ := Event.returned.inj new
        rw [position] at here
        exact absurd here (by simp [Fg.Delivering, scrap])
      · have earlier : Event.returned t call .ok ∈ s.log := by simpa using earlier
        exact delivering.accepted t call earlier scrap src starts
    | oomPage position | oomDirect position => exact old ⟨[_], rfl, by simp⟩
    | @decide u other done p created position decision decided =>
      refine old ⟨_, rfl, ?_⟩
      simp only [chunkEvents, List.mem_append]
      split_ifs <;> simp
    | detach position => exact old ⟨_, rfl, by simp⟩
    | alloc position => exact old ⟨[_], rfl, by simp⟩
    | callDirect | callScrap | gatePass | gatePark | parkedPass | lookupFound | lockPage
    | partialInc | partialPush | fullInc | fullEnter | fullPush | unlockMore | unlockRetry =>
      exact old ⟨[], rfl, by simp⟩

theorem Delivering.step (delivering : Delivering s) (sound : Sound cfg s) (aimed : Aimed s)
    (move : Move cfg s label s') : Delivering s' where
  active := by
    intro t
    by_cases mine : label.thread = some t
    · exact delivering.own sound aimed (own_move move mine) mine
    · have here := delivering.active t
      rw [fg_frame move mine]
      cases position : s.fg t with
      | idle => trivial
      | direct call => rwa [position] at here
      | scrap call done pc =>
        rw [position] at here
        exact here.moved sound move id
  accepted := fun t call member scrap src starts =>
    (accepted_step delivering move member scrap starts).mono sound move

/-- In every run, the chunks of `nox_write` are those of the split loop, and a call on the scrap
path that returned 0 has delivered each of them to a page of its base. -/
theorem engine_splits (reached : Reachable cfg file scratch s) :
    (∀ t call done pc, s.fg t = .scrap call done pc →
      ∃ chunk ∈ call.chunks, chunk.src = done ∧ chunk.base.toNat = call.base done ∧
        chunk.intra.toNat = call.intra done ∧ chunk.len.toNat = call.chunk done) ∧
    ∀ t call, .returned t call .ok ∈ s.log → call.isDirect = false →
      ∀ chunk ∈ call.chunks, ∃ p < s.created, (s.pages p).base = chunk.base.toNat ∧
        .merged p (chunk.base.toNat + chunk.intra.toNat) chunk.len.toNat (call.cells chunk.src) ∈
          s.log := by
  have delivering : Delivering s := by
    refine reached.invariant_along (Ordinary cfg) Delivering ordinary_of_run ?_
      fun ordinary delivering _ stepped =>
        delivering.step ordinary.sound ordinary.aimed (move_of_step stepped)
    exact ⟨fun t => trivial, by simp [Engine.init]⟩
  constructor
  · intro t call done pc position
    have here := delivering.active t
    rw [position] at here
    obtain ⟨chunk, member, rfl⟩ := here.1.mem_chunks
    have cut := (Call.cut_of_mem member).1
    exact ⟨chunk, member, rfl, cut.base, cut.intra, cut.len⟩
  · intro t call member scrap chunk among
    obtain ⟨cut, starts⟩ := Call.cut_of_mem among
    obtain ⟨p, current, base, event⟩ := delivering.accepted t call member scrap _ starts
    rw [cut.base, cut.intra, cut.len, call.base_add_intra]
    exact ⟨p, current, base, event⟩

/-- The small call has returned, and its bytes are in a page. -/
theorem engine_splits_of_returned :
    ∃ (s : Engine 1) (t : Fin 1) (call : Call), Reachable .standard emptyFile (fun _ => 0) s ∧
      .returned t call .ok ∈ s.log ∧ call.size = 10 ∧
      ∀ chunk ∈ call.chunks, ∃ p < s.created, (s.pages p).base = chunk.base.toNat ∧
        .merged p (chunk.base.toNat + chunk.intra.toNat) chunk.len.toNat (call.cells chunk.src) ∈
          s.log := by
  obtain ⟨s, reached, answered⟩ := exists_reachable .standard emptyFile (fun _ => 0) tinyWrite
    (fun s : Engine 1 => (s.lastCall 5).map (fun a => (a.1.isDirect, a.1.size, a.2)) =
      some (false, 10, .ok)) (by decide +kernel)
  obtain ⟨⟨call, rc⟩, last, same⟩ := Option.map_eq_some_iff.mp answered
  obtain ⟨scrap, size, rfl⟩ : call.isDirect = false ∧ call.size = 10 ∧ rc = .ok := by
    simpa using same
  obtain ⟨event, member, answers⟩ := List.exists_of_findSome?_eq_some last
  cases event with
  | returned t other rc =>
    simp only [Event.answers] at answers
    split at answers
    · cases answers
      exact ⟨s, t, call, reached, member, size, (engine_splits reached).2 t call member scrap⟩
    · contradiction
  | _ => cases answers

end Engine

end NoxDB

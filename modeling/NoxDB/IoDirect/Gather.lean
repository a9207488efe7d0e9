import NoxDB.File
import NoxDB.IoDirect

/-! # The gather write, whole

`io_direct_pwritev_all` with its buffers and the file it writes to.  The device answers each call
as it likes within what `pwritev` may do.  The loop ends because a call either completes an iovec
or spends the stall budget (`pwritevAfter_again`).  What it keeps true between two calls is
`Resumable`: it stands at the start of an iovec, everything before it is in the file, and nothing
was written but intended bytes at their place.
-/

namespace NoxDB

/-- What is asked of a `pwritev`, and what it answered. -/
structure PwritevCall where
  first : Nat
  iov : List (List UInt8)
  offset : Nat
  result : IoResult

/-- The `iov_len` fields. -/
def iovLens (iov : List (List UInt8)) : List Nat := iov.map List.length

theorem length_iovLens (iov : List (List UInt8)) : (iovLens iov).length = iov.length :=
  List.length_map _

/-- By how much `cur_off` advances after an outcome. -/
def bytesDone (lens : List Nat) (st : PwritevState) : IoResult → Nat
  | .ok w => (iovCompleteCount (lens.drop st.i) w).2
  | .error _ _ => 0

theorem spend_again {st next : PwritevState} (again : st.spend = .again next) :
    next.i = st.i ∧ next.stall < st.stall := by
  rw [PwritevState.spend] at again
  split at again
  · contradiction
  · next left =>
    simp only [PwritevNext.again.injEq] at again
    subst again
    exact ⟨rfl, by simp only; omega⟩

/-- Going on costs stall budget or advances by the iovecs that are complete. -/
theorem pwritevAfter_again {lens : List Nat} {st next : PwritevState} {result : IoResult}
    (again : pwritevAfter lens st result = .again next) :
    (next.i = st.i ∧ next.stall < st.stall ∧ bytesDone lens st result = 0) ∨
      ∃ w, result = .ok w ∧ 0 < (iovCompleteCount (lens.drop st.i) w).1 ∧
        next = ⟨st.i + (iovCompleteCount (lens.drop st.i) w).1, ioMaxStall⟩ ∧
        next.i < lens.length := by
  have zero : ∀ {rest : List Nat} {n : Nat}, (iovCompleteCount rest n).1 = 0 →
      (iovCompleteCount rest n).2 = 0 := by
    intro rest n none
    cases rest with
    | nil => rfl
    | cons len rest =>
      rw [iovCompleteCount] at none ⊢
      split at none
      · simp at none
      · next short => rw [if_neg short]
  rcases result with (_ | w) | ⟨(_ | _ | _), landed⟩
  · simp [pwritevAfter] at again
  · simp only [pwritevAfter] at again
    split at again
    · next none => exact .inl ⟨(spend_again again).1, (spend_again again).2, zero none⟩
    · next some =>
      split at again
      · contradiction
      · next more =>
        simp only [PwritevNext.again.injEq] at again
        subst again
        exact .inr ⟨w + 1, rfl, Nat.pos_of_ne_zero some, rfl, by simp only; omega⟩
  · exact .inl ⟨(spend_again again).1, (spend_again again).2, rfl⟩
  · simp [pwritevAfter] at again
  · simp [pwritevAfter] at again

/-- Bytes `k` on of the buffers from `rest` on. -/
def gathered (rest : List (List UInt8)) (k : Nat) : UInt8 := rest.flatten.getD k 0

/-- The call made at iovec `st.i` with `made` calls before it.  `device n offset len` is the outcome
of the `n`-th call when it is asked to write `len` bytes at `offset`. -/
def gatherCall (device : Nat → Nat → Nat → IoResult) (iov : List (List UInt8)) (st : PwritevState)
    (curOff made : Nat) : PwritevCall where
  first := st.i
  iov := iov.drop st.i
  offset := curOff
  result := device made curOff (iov.drop st.i).flatten.length

/-- The file after a call. -/
def PwritevCall.land (call : PwritevCall) (file : File) : File :=
  file.pwrite call.offset call.result.landed (gathered call.iov)

/-- The loop of `io_direct_pwritev_all`. -/
def pwritevLoop (device : Nat → Nat → Nat → IoResult) (iov : List (List UInt8))
    (st : PwritevState) (curOff : Nat) (file : File) (calls : List PwritevCall) :
    Option Nat × File × List PwritevCall :=
  match _next : pwritevAfter (iovLens iov) st
      (gatherCall device iov st curOff calls.length).result with
  | .done value =>
    (value, (gatherCall device iov st curOff calls.length).land file,
      calls ++ [gatherCall device iov st curOff calls.length])
  | .again next =>
    pwritevLoop device iov next
      (curOff + bytesDone (iovLens iov) st
        (gatherCall device iov st curOff calls.length).result)
      ((gatherCall device iov st curOff calls.length).land file)
      (calls ++ [gatherCall device iov st curOff calls.length])
termination_by (iov.length - st.i, st.stall)
decreasing_by
  rcases pwritevAfter_again _next with ⟨same, less, -⟩ | ⟨w, -, progress, rfl, inside⟩
  · rw [same]
    exact Prod.Lex.right _ less
  · apply Prod.Lex.left
    simp only [length_iovLens] at inside ⊢
    omega

/-- The value of `(ssize_t)total` for a `size_t total`. -/
def ssize (total : Nat) : Int :=
  if total % word < maxOffset then (total % word : Nat) else (total % word : Nat) - (word : Nat)

/-- `io_direct_pwritev_all`: its return value, the file and the calls it made. -/
def ioDirectPwritevAll (device : Nat → Nat → Nat → IoResult) (iov : List (List UInt8)) (off : Nat)
    (file : File) : Int × File × List PwritevCall :=
  -- The loop is entered only when there is an iovec.
  if iov.length = 0 then (0, file, []) else
  match pwritevLoop device iov .init off file [] with
  | (none, file, calls) => (-1, file, calls)
  | (some total, file, calls) => (ssize total, file, calls)

/-! ## The loop rule -/

section Rule

variable {device : Nat → Nat → Nat → IoResult} {iov : List (List UInt8)}

/-- What every pass keeps holds at the end, with what the last pass establishes. -/
theorem pwritevLoop_rule (invariant : PwritevState → Nat → File → List PwritevCall → Prop)
    (post : Option Nat → File → List PwritevCall → Prop)
    (done : ∀ st curOff file calls value, invariant st curOff file calls →
      pwritevAfter (iovLens iov) st
        (gatherCall device iov st curOff calls.length).result = .done value →
      post value ((gatherCall device iov st curOff calls.length).land file)
        (calls ++ [gatherCall device iov st curOff calls.length]))
    (again : ∀ st curOff file calls next, invariant st curOff file calls →
      pwritevAfter (iovLens iov) st
        (gatherCall device iov st curOff calls.length).result = .again next →
      invariant next (curOff + bytesDone (iovLens iov) st
          (gatherCall device iov st curOff calls.length).result)
        ((gatherCall device iov st curOff calls.length).land file)
        (calls ++ [gatherCall device iov st curOff calls.length]))
    {st : PwritevState} {curOff : Nat} {file : File} {calls : List PwritevCall}
    (start : invariant st curOff file calls) :
    post (pwritevLoop device iov st curOff file calls).1
      (pwritevLoop device iov st curOff file calls).2.1
      (pwritevLoop device iov st curOff file calls).2.2 := by
  fun_induction pwritevLoop device iov st curOff file calls with
  | case1 st curOff file calls value outcome =>
    exact done st curOff file calls value start outcome
  | case2 st curOff file calls next outcome inductionHypothesis =>
    exact inductionHypothesis (again st curOff file calls next start outcome)

/-- How many more calls the loop can make: `NOX_IO_MAX_STALL + 1` for each iovec after the current
one, and what is left of the budget for the current one. -/
def callsLeft (count : Nat) (st : PwritevState) : Nat :=
  (ioMaxStall + 1) * (count - st.i - 1) + st.stall + 1

theorem pwritevLoop_calls {st : PwritevState} (curOff : Nat) (file : File)
    (calls : List PwritevCall) (inside : st.i < iov.length) :
    (pwritevLoop device iov st curOff file calls).2.2.length ≤
      calls.length + callsLeft iov.length st := by
  refine pwritevLoop_rule
    (fun st' _ _ calls' => st'.i < iov.length ∧
      calls'.length + callsLeft iov.length st' ≤ calls.length + callsLeft iov.length st)
    (fun _ _ calls' => calls'.length ≤ calls.length + callsLeft iov.length st) ?_ ?_
    ⟨inside, le_rfl⟩
  · rintro st' curOff file calls' value ⟨-, bound⟩ -
    simp only [List.length_append, List.length_singleton, callsLeft] at *
    omega
  · rintro st' curOff file calls' next ⟨within, bound⟩ outcome
    rw [List.length_append, List.length_singleton]
    rcases pwritevAfter_again outcome with ⟨same, less, -⟩ | ⟨w, -, progress, rfl, further⟩
    · refine ⟨same ▸ within, le_trans ?_ bound⟩
      simp only [callsLeft, same]
      omega
    · rw [length_iovLens] at further
      refine ⟨further, le_trans ?_ bound⟩
      simp only [callsLeft, ioMaxStall] at further ⊢
      omega

end Rule

/-! ## What is in the file -/

theorem iovCompleteCount_spec (lens : List Nat) (n : Nat) :
    (iovCompleteCount lens n).2 = (lens.take (iovCompleteCount lens n).1).sum ∧
      (iovCompleteCount lens n).2 ≤ n := by
  induction lens generalizing n with
  | nil => simp [iovCompleteCount]
  | cons len lens inductionHypothesis =>
    rw [iovCompleteCount]
    split
    · next fits =>
      obtain ⟨sum, le⟩ := inductionHypothesis (n - len)
      refine ⟨?_, by simp only; omega⟩
      simp only [List.take_succ_cons, List.sum_cons]
      omega
    · simp

theorem pwritevAfter_done {lens : List Nat} {st : PwritevState} {result : IoResult} {total : Nat}
    (done : pwritevAfter lens st result = .done (some total)) :
    total = lens.sum ∧ ∃ w, result = .ok w ∧ 0 < w ∧
      lens.length ≤ st.i + (iovCompleteCount (lens.drop st.i) w).1 := by
  have spends : st.spend ≠ .done (some total) := by
    rw [PwritevState.spend]
    split <;> simp
  rcases result with (_ | w) | ⟨(_ | _ | _), landed⟩
  · simp [pwritevAfter] at done
  · simp only [pwritevAfter] at done
    split at done
    · exact absurd done spends
    · split at done
      · next complete =>
        simp only [PwritevNext.done.injEq, Option.some.injEq] at done
        exact ⟨done.symm, w + 1, rfl, Nat.succ_pos w, complete⟩
      · contradiction
  · exact absurd done spends
  · simp [pwritevAfter] at done
  · simp [pwritevAfter] at done

theorem sum_iovLens (iov : List (List UInt8)) : (iovLens iov).sum = iov.flatten.length := by
  rw [iovLens, List.length_flatten]

theorem sum_take_drop (iov : List (List UInt8)) (i k : Nat) :
    (((iovLens iov).drop i).take k).sum = ((iov.drop i).take k).flatten.length := by
  rw [← sum_iovLens, iovLens, iovLens, List.map_take, List.map_drop]

theorem length_take_add (iov : List (List UInt8)) (i k : Nat) :
    (iov.take (i + k)).flatten.length =
      (iov.take i).flatten.length + ((iov.drop i).take k).flatten.length := by
  rw [List.take_add, List.flatten_append, List.length_append]

theorem length_take_add_drop (iov : List (List UInt8)) (i : Nat) :
    (iov.take i).flatten.length + (iov.drop i).flatten.length = iov.flatten.length := by
  rw [← List.length_append, ← List.flatten_append, List.take_append_drop]

theorem gathered_drop (iov : List (List UInt8)) (i j : Nat) :
    gathered (iov.drop i) j = gathered iov ((iov.take i).flatten.length + j) := by
  have split : iov.flatten = (iov.take i).flatten ++ (iov.drop i).flatten := by
    rw [← List.flatten_append, List.take_append_drop]
  rw [gathered, gathered, split, List.getD_eq_getElem?_getD, List.getD_eq_getElem?_getD,
    List.getElem?_append_right (Nat.le_add_right _ _), Nat.add_sub_cancel_left]

/-- The file holds old bytes or intended ones at their place, and every call started at the
boundary of an iovec. -/
structure Confined (iov : List (List UInt8)) (off : Nat) (before file : File)
    (calls : List PwritevCall) : Prop where
  outside : ∀ x, ¬ (off ≤ x ∧ x < off + iov.flatten.length) → file.byte x = before.byte x
  either : ∀ k < iov.flatten.length,
    file.byte (off + k) = before.byte (off + k) ∨ file.byte (off + k) = gathered iov k
  starts : ∀ call ∈ calls, call.first < iov.length ∧ call.iov = iov.drop call.first ∧
    call.offset = off + (iov.take call.first).flatten.length
  grown : before.size ≤ file.size
  bounded : file.size ≤ max before.size (off + iov.flatten.length)

/-- Between two calls: the loop stands at an iovec, and everything before it is in the file. -/
structure Resumable (iov : List (List UInt8)) (off : Nat) (before : File) (st : PwritevState)
    (curOff : Nat) (file : File) (calls : List PwritevCall) : Prop where
  inside : st.i < iov.length
  boundary : curOff = off + (iov.take st.i).flatten.length
  written : ∀ k < (iov.take st.i).flatten.length, file.byte (off + k) = gathered iov k
  confined : Confined iov off before file calls

/-- What a completed gather write reports and leaves. -/
structure Complete (iov : List (List UInt8)) (off total : Nat) (file : File) : Prop where
  sum : total = iov.flatten.length
  positive : 0 < total
  inFile : off + total ≤ maxOffset
  reached : off + total ≤ file.size
  written : ∀ k < total, file.byte (off + k) = gathered iov k

section Content

variable {device : Nat → Nat → Nat → IoResult} {iov : List (List UInt8)} {off curOff : Nat}
  {before file : File} {st : PwritevState} {calls : List PwritevCall}

/-- A call puts intended bytes at their place, from the current boundary on. -/
theorem land_byte (boundary : curOff = off + (iov.take st.i).flatten.length) (made k : Nat) :
    ((gatherCall device iov st curOff made).land file).byte (off + k) =
      if (iov.take st.i).flatten.length ≤ k ∧
          k < (iov.take st.i).flatten.length + (gatherCall device iov st curOff made).result.landed
      then gathered iov k else file.byte (off + k) := by
  have offset : (gatherCall device iov st curOff made).offset = curOff := rfl
  have rest : (gatherCall device iov st curOff made).iov = iov.drop st.i := rfl
  generalize gatherCall device iov st curOff made = call at *
  rw [PwritevCall.land, File.pwrite_byte]
  by_cases covered : (iov.take st.i).flatten.length ≤ k ∧
      k < (iov.take st.i).flatten.length + call.result.landed
  · rw [if_pos covered, if_pos (by omega), rest, gathered_drop]
    congr 1
    omega
  · rw [if_neg covered, if_neg (by omega)]

theorem Resumable.land (resumable : Resumable iov off before st curOff file calls)
    (fits : ∀ n offset len, (device n offset len).Fits offset len) :
    Confined iov off before ((gatherCall device iov st curOff calls.length).land file)
      (calls ++ [gatherCall device iov st curOff calls.length]) := by
  have boundary := resumable.boundary
  have whole := length_take_add_drop iov st.i
  have landed : (gatherCall device iov st curOff calls.length).result.landed ≤
      (iov.drop st.i).flatten.length := (fits _ _ _).1
  have grown := resumable.confined.grown
  have bounded := resumable.confined.bounded
  refine ⟨fun x outside => ?_, fun k inside => ?_, fun call member => ?_, ?_, ?_⟩
  · have offset : (gatherCall device iov st curOff calls.length).offset = curOff := rfl
    rw [PwritevCall.land, File.pwrite_byte, if_neg (by omega), resumable.confined.outside x outside]
  · rw [land_byte boundary]
    split
    · exact .inr rfl
    · exact resumable.confined.either k inside
  · rcases List.mem_append.mp member with earlier | last
    · exact resumable.confined.starts call earlier
    · rw [List.mem_singleton] at last
      subst last
      exact ⟨resumable.inside, rfl, boundary⟩
  · simp only [PwritevCall.land, File.pwrite]
    split <;> omega
  · have offset : (gatherCall device iov st curOff calls.length).offset = curOff := rfl
    simp only [PwritevCall.land, File.pwrite]
    split <;> omega

/-- What has landed of the current call is in the file. -/
theorem Resumable.written_land (resumable : Resumable iov off before st curOff file calls)
    {made k : Nat} (reached : k < (iov.take st.i).flatten.length +
      (gatherCall device iov st curOff made).result.landed) :
    ((gatherCall device iov st curOff made).land file).byte (off + k) = gathered iov k := by
  rw [land_byte resumable.boundary]
  split
  · rfl
  · exact resumable.written k (by omega)

theorem Resumable.again {next : PwritevState}
    (resumable : Resumable iov off before st curOff file calls)
    (fits : ∀ n offset len, (device n offset len).Fits offset len)
    (outcome : pwritevAfter (iovLens iov) st
      (gatherCall device iov st curOff calls.length).result = .again next) :
    Resumable iov off before next
      (curOff + bytesDone (iovLens iov) st (gatherCall device iov st curOff calls.length).result)
      ((gatherCall device iov st curOff calls.length).land file)
      (calls ++ [gatherCall device iov st curOff calls.length]) := by
  have confined := resumable.land fits
  rcases pwritevAfter_again outcome with ⟨same, -, none⟩ | ⟨w, answer, -, rfl, further⟩
  · refine ⟨same ▸ resumable.inside, ?_, fun k reached => ?_, confined⟩
    · rw [none, same, resumable.boundary, Nat.add_zero]
    · exact resumable.written_land (by rw [same] at reached; omega)
  · obtain ⟨sum, le⟩ := iovCompleteCount_spec ((iovLens iov).drop st.i) w
    rw [sum_take_drop] at sum
    rw [length_iovLens] at further
    refine ⟨further, ?_, fun k reached => ?_, confined⟩
    · rw [answer, bytesDone, length_take_add, sum, resumable.boundary, Nat.add_assoc]
    · apply resumable.written_land
      rw [length_take_add] at reached
      rw [answer, IoResult.landed]
      omega

theorem Resumable.done {total : Nat} (resumable : Resumable iov off before st curOff file calls)
    (fits : ∀ n offset len, (device n offset len).Fits offset len)
    (outcome : pwritevAfter (iovLens iov) st
      (gatherCall device iov st curOff calls.length).result = .done (some total)) :
    Complete iov off total ((gatherCall device iov st curOff calls.length).land file) := by
  obtain ⟨rfl, w, answer, positive, complete⟩ := pwritevAfter_done outcome
  obtain ⟨sum, le⟩ := iovCompleteCount_spec ((iovLens iov).drop st.i) w
  have whole := length_take_add_drop iov st.i
  have all : ((iovLens iov).drop st.i).take (iovCompleteCount ((iovLens iov).drop st.i) w).1 =
      (iovLens iov).drop st.i := List.take_of_length_le (by rw [List.length_drop]; omega)
  have rest : ((iovLens iov).drop st.i).sum = (iov.drop st.i).flatten.length := by
    rw [← sum_iovLens, iovLens, iovLens, List.map_drop]
  rw [all, rest] at sum
  have landed : (gatherCall device iov st curOff calls.length).result.landed = w := by
    rw [answer, IoResult.landed]
  have bounded := (fits calls.length curOff (iov.drop st.i).flatten.length).2
  change (gatherCall device iov st curOff calls.length).result.landed = 0 ∨
    curOff + (gatherCall device iov st curOff calls.length).result.landed ≤ maxOffset at bounded
  have boundary := resumable.boundary
  have asked : (gatherCall device iov st curOff calls.length).result.landed ≤
      (iov.drop st.i).flatten.length := (fits _ _ _).1
  rw [sum_iovLens]
  refine ⟨rfl, by omega, by omega, ?_, fun k inside => resumable.written_land (by omega)⟩
  have offset : (gatherCall device iov st curOff calls.length).offset = curOff := rfl
  simp only [PwritevCall.land, File.pwrite]
  rw [if_neg (by omega)]
  omega

end Content

theorem ssize_of_nonneg {total : Nat} (bounded : total ≤ maxOffset) (nonneg : 0 ≤ ssize total) :
    ssize total = total := by
  have small : total % word = total :=
    Nat.mod_eq_of_lt (lt_of_le_of_lt bounded (by decide))
  rw [ssize, small] at nonneg ⊢
  split at nonneg
  · next inside => rw [if_pos inside]
  · next past =>
    simp only [maxOffset, word] at *
    omega

theorem pwritevLoop_outcome {device : Nat → Nat → Nat → IoResult}
    (fits : ∀ n offset len, (device n offset len).Fits offset len) {iov : List (List UInt8)}
    (nonempty : iov ≠ []) (off : Nat) (before : File) :
    ∃ value file calls, pwritevLoop device iov .init off before [] = (value, file, calls) ∧
      calls.length ≤ (ioMaxStall + 1) * iov.length ∧ Confined iov off before file calls ∧
      ∀ total, value = some total → Complete iov off total file := by
  have count : 0 < iov.length := List.length_pos_iff.mpr nonempty
  have bound := @pwritevLoop_calls device iov .init off before [] count
  have start : Resumable iov off before .init off before [] :=
    ⟨count, by simp [PwritevState.init], by simp [PwritevState.init],
      ⟨fun _ _ => rfl, fun _ _ => .inl rfl, by simp, le_rfl, le_max_left _ _⟩⟩
  have result := @pwritevLoop_rule device iov (Resumable iov off before)
    (fun value file calls => Confined iov off before file calls ∧
      ∀ total, value = some total → Complete iov off total file)
    (fun st curOff file calls value resumable outcome =>
      ⟨resumable.land fits, fun total same => resumable.done fits (same ▸ outcome)⟩)
    (fun st curOff file calls next resumable outcome => resumable.again fits outcome)
    .init off before [] start
  have budget : callsLeft iov.length .init = (ioMaxStall + 1) * iov.length := by
    simp only [callsLeft, PwritevState.init, ioMaxStall]
    omega
  rw [List.length_nil, Nat.zero_add, budget] at bound
  exact ⟨_, _, _, rfl, bound, result⟩

/-- For every nonempty array of buffers, every offset and every sequence of outcomes, the gather
write makes at most `NOX_IO_MAX_STALL + 1` calls for each iovec, each of them at the boundary of
an iovec of the same array; a nonnegative return value is the sum of the lengths, with all of it
in the file; and no byte of the file is anything but its old value or the intended one. -/
theorem gather_write (device : Nat → Nat → Nat → IoResult)
    (fits : ∀ n offset len, (device n offset len).Fits offset len) (iov : List (List UInt8))
    (nonempty : iov ≠ []) (off : Nat) (before : File) :
    ∃ value file calls, ioDirectPwritevAll device iov off before = (value, file, calls) ∧
      calls.length ≤ (ioMaxStall + 1) * iov.length ∧
      (0 ≤ value → value = (iov.map List.length).sum ∧
        ∀ k < (iov.map List.length).sum, file.byte (off + k) = iov.flatten.getD k 0) ∧
      (∀ x, ¬ (off ≤ x ∧ x < off + (iov.map List.length).sum) → file.byte x = before.byte x) ∧
      (∀ k < (iov.map List.length).sum,
        file.byte (off + k) = before.byte (off + k) ∨
          file.byte (off + k) = iov.flatten.getD k 0) ∧
      ∀ call ∈ calls, call.first < iov.length ∧ call.iov = iov.drop call.first ∧
        call.offset = off + ((iov.take call.first).map List.length).sum := by
  have count : 0 < iov.length := List.length_pos_iff.mpr nonempty
  have lengths : (iov.map List.length).sum = iov.flatten.length := sum_iovLens iov
  have prefixes : ∀ i, ((iov.take i).map List.length).sum = (iov.take i).flatten.length :=
    fun i => sum_iovLens _
  obtain ⟨value, file, calls, computed, bound, confined, complete⟩ :=
    pwritevLoop_outcome fits nonempty off before
  rw [ioDirectPwritevAll, if_neg (by omega), computed, lengths]
  simp only [prefixes]
  cases value with
  | none =>
    exact ⟨-1, file, calls, rfl, bound, by simp, confined.outside, confined.either,
      confined.starts⟩
  | some total =>
    obtain ⟨rfl, -, inFile, -, written⟩ := complete total rfl
    refine ⟨_, file, calls, rfl, bound, fun nonneg => ⟨ssize_of_nonneg ?_ nonneg, written⟩,
      confined.outside, confined.either, confined.starts⟩
    omega

/-- A device that writes one byte a call. -/
def slowDevice (_ offset len : Nat) : IoResult := .ok (if offset < maxOffset then min 1 len else 0)

theorem slowDevice_fits (n offset len : Nat) : (slowDevice n offset len).Fits offset len := by
  simp only [slowDevice, IoResult.Fits, IoResult.landed]
  split <;> omega

/-- Over a slow device the second of two buffers is never complete. -/
theorem gather_write_of_slow :
    ∃ value file calls, ioDirectPwritevAll slowDevice [[1], [2, 3]] 0 (File.ofBytes 0 fun _ => 0) =
        (value, file, calls) ∧ calls.length ≤ 10 ∧
      ∀ k < 3, file.byte (0 + k) = (File.ofBytes 0 fun _ => 0).byte (0 + k) ∨
        file.byte (0 + k) = [1, 2, 3].getD k 0 := by
  obtain ⟨value, file, calls, computed, bound, -, -, either, -⟩ := gather_write slowDevice
    slowDevice_fits [[1], [2, 3]] (by simp) 0 (File.ofBytes 0 fun _ => 0)
  exact ⟨value, file, calls, computed, bound, either⟩

/-! ## Success -/

/-- A gather write that reports success is one positioned write of its buffers in order. -/
theorem file_of_success {device : Nat → Nat → Nat → IoResult}
    (fits : ∀ n offset len, (device n offset len).Fits offset len) {iov : List (List UInt8)}
    {off : Nat} {before file : File} {value : Int} {calls : List PwritevCall} (nonempty : iov ≠ [])
    (computed : ioDirectPwritevAll device iov off before = (value, file, calls))
    (success : 0 ≤ value) :
    off + iov.flatten.length ≤ maxOffset ∧
      file = before.pwrite off iov.flatten.length (iov.flatten.getD · 0) := by
  obtain ⟨result, file', calls', looped, -, confined, complete⟩ :=
    pwritevLoop_outcome fits nonempty off before
  rw [ioDirectPwritevAll, if_neg (by have := List.length_pos_iff.mpr nonempty; omega), looped]
    at computed
  cases result with
  | none =>
    simp only [Prod.mk.injEq] at computed
    omega
  | some total =>
    simp only [Prod.mk.injEq] at computed
    obtain ⟨-, rfl, -⟩ := computed
    obtain ⟨rfl, positive, inFile, reached, written⟩ := complete total rfl
    have grown := confined.grown
    have bounded := confined.bounded
    refine ⟨inFile, File.ext ?_ (funext fun x => ?_)⟩
    · simp only [File.pwrite]
      rw [if_neg (by omega)]
      omega
    · rw [File.pwrite_byte]
      by_cases inside : off ≤ x ∧ x < off + iov.flatten.length
      · rw [if_pos inside]
        have value := written (x - off) (by omega)
        rw [Nat.add_sub_of_le inside.1] at value
        exact value
      · rw [if_neg inside, confined.outside x inside]

/-- A device that takes everything at once makes the gather write succeed. -/
theorem ioDirectPwritevAll_of_whole {device : Nat → Nat → Nat → IoResult} {iov : List (List UInt8)}
    {off : Nat} (positive : 0 < iov.flatten.length)
    (whole : device 0 off iov.flatten.length = .ok iov.flatten.length) (before : File) :
    ∃ file calls, ioDirectPwritevAll device iov off before =
      (ssize iov.flatten.length, file, calls) := by
  have count : 0 < iov.length := by
    cases iov with
    | nil => simp at positive
    | cons buf iov => exact Nat.succ_pos _
  have answer : (gatherCall device iov .init off 0).result = .ok iov.flatten.length := whole
  have after : pwritevAfter (iovLens iov) .init (.ok iov.flatten.length) =
      .done (some iov.flatten.length) := by
    have complete := congrArg Prod.fst (iovCompleteCount_sum (iovLens iov))
    rw [length_iovLens] at complete
    rw [← sum_iovLens] at positive ⊢
    obtain ⟨w, same⟩ := Nat.exists_eq_succ_of_ne_zero positive.ne'
    rw [same] at complete
    simp only [same, pwritevAfter, PwritevState.init, List.drop_zero, Nat.succ_eq_add_one] at complete ⊢
    rw [complete, if_neg (by omega), if_pos (by rw [length_iovLens]; omega)]
  have looped : ∃ file calls, pwritevLoop device iov .init off before [] =
      (some iov.flatten.length, file, calls) := by
    rw [pwritevLoop]
    split
    · next outcome =>
      rw [List.length_nil, answer, after, PwritevNext.done.injEq] at outcome
      subst outcome
      exact ⟨_, _, rfl⟩
    · next outcome =>
      rw [List.length_nil, answer, after] at outcome
      contradiction
  obtain ⟨file, calls, computed⟩ := looped
  refine ⟨file, calls, ?_⟩
  rw [ioDirectPwritevAll, if_neg (by omega), computed]

/-- `io_direct_pwrite_all` -/
def ioDirectPwriteAll (device : Nat → Nat → Nat → IoResult) (buf : List UInt8) (off : Nat)
    (file : File) : Int × File × List PwritevCall :=
  ioDirectPwritevAll device [buf] off file

end NoxDB

import NoxDB.Config

/-! # The resuming gather write

The loop of `io_direct_pwritev_all`, one `pwritev` at a time: `pwritevAfter` says
what the loop does with the outcome of a call.  Resumption is at the granularity of
whole iovecs, and calls that complete no iovec share the budget
`NOX_IO_MAX_STALL`.
-/

namespace NoxDB

/-- The error numbers the loop tells apart. -/
inductive Errno where
  | eintr
  | einval
  | other
deriving DecidableEq, Repr

/-- Outcome of a `pwrite` or `pwritev`: `ok w` wrote exactly its first `w` bytes, and a
failing call may have written a prefix as well. -/
inductive IoResult where
  | ok (written : Nat)
  | error (errno : Errno) (landed : Nat)
deriving DecidableEq, Repr

/-- How many bytes reached the file. -/
def IoResult.landed : IoResult → Nat
  | .ok written => written
  | .error _ landed => landed

/-- The range of `off_t`. -/
abbrev maxOffset : Nat := 2 ^ 63

/-- A transfer delivers no more than it was asked and nothing past the largest offset. -/
def IoResult.Fits (result : IoResult) (offset len : Nat) : Prop :=
  result.landed ≤ len ∧ (result.landed = 0 ∨ offset + result.landed ≤ maxOffset)

instance (result : IoResult) (offset len : Nat) : Decidable (result.Fits offset len) :=
  inferInstanceAs (Decidable (_ ∧ _))

/-- `NOX_IO_MAX_STALL` -/
abbrev ioMaxStall : Nat := 4

/-- `iov_complete_count`: how many leading iovecs `n` bytes cover fully, and the sum
of their lengths. -/
def iovCompleteCount : List Nat → Nat → Nat × Nat
  | [], _ => (0, 0)
  | len :: lens, n =>
    if len ≤ n then
      let (k, done) := iovCompleteCount lens (n - len)
      (k + 1, len + done)
    else
      (0, 0)

/-- The loop variables: the first iovec not yet fully written and the stall budget. -/
structure PwritevState where
  i : Nat
  stall : Nat
deriving DecidableEq, Repr

def PwritevState.init : PwritevState := ⟨0, ioMaxStall⟩

inductive PwritevNext where
  | again (next : PwritevState)
  | done (result : Option Nat)
deriving DecidableEq, Repr

/-- A call that advanced nothing spends one unit of the budget. -/
def PwritevState.spend (st : PwritevState) : PwritevNext :=
  if st.stall = 0 then .done none else .again { st with stall := st.stall - 1 }

/-- The body of the loop of `io_direct_pwritev_all` after its `pwritev`. -/
def pwritevAfter (lens : List Nat) (st : PwritevState) : IoResult → PwritevNext
  | .error .eintr _ => st.spend
  | .error _ _ => .done none
  | .ok 0 => .done none
  | .ok (w + 1) =>
    -- Bytes past the last whole iovec are written again.
    let k := (iovCompleteCount (lens.drop st.i) (w + 1)).1
    if k = 0 then
      st.spend
    else if lens.length ≤ st.i + k then
      .done (some lens.sum)
    else
      .again ⟨st.i + k, ioMaxStall⟩

/-! ## What an outcome says about the bytes that landed -/

theorem iovCompleteCount_mul_le {lens : List Nat} {len : Nat} (equal : ∀ l ∈ lens, l = len)
    (w : Nat) : (iovCompleteCount lens w).1 * len ≤ w := by
  induction lens generalizing w with
  | nil => simp [iovCompleteCount]
  | cons first lens inductionHypothesis =>
    obtain rfl := equal first List.mem_cons_self
    simp only [iovCompleteCount]
    split
    · next fits =>
      have rest := inductionHypothesis (fun l among => equal l (List.mem_cons_of_mem _ among))
        (w - first)
      simp only [Nat.add_mul, Nat.one_mul]
      omega
    · simp

/-- All bytes complete all iovecs. -/
theorem iovCompleteCount_sum (lens : List Nat) :
    iovCompleteCount lens lens.sum = (lens.length, lens.sum) := by
  induction lens with
  | nil => rfl
  | cons len lens inductionHypothesis =>
    simp only [iovCompleteCount, List.sum_cons, Nat.le_add_right, if_true, Nat.add_sub_cancel_left,
      inductionHypothesis, List.length_cons]

theorem pwritevAfter_spend {st : PwritevState} {after : PwritevNext} (outcome : after = st.spend) :
    after = .done none ∨ ∃ stall, after = .again ⟨st.i, stall⟩ := by
  rw [PwritevState.spend] at outcome
  split at outcome
  · exact .inl outcome
  · exact .inr ⟨_, outcome⟩

/-- The three ways on: give up, resume further ahead, or be done; the bytes of what is behind
have landed. -/
theorem pwritevAfter_cases {lens : List Nat} {len : Nat} (equal : ∀ l ∈ lens, l = len)
    {st : PwritevState} {result : IoResult} {after : PwritevNext}
    (outcome : after = pwritevAfter lens st result) :
    after = .done none ∨
      (∃ next, after = .again next ∧ st.i ≤ next.i ∧ (next.i - st.i) * len ≤ result.landed) ∨
      ∃ total, after = .done (some total) ∧ (lens.length - st.i) * len ≤ result.landed := by
  have spent : after = st.spend → after = .done none ∨
      (∃ next, after = .again next ∧ st.i ≤ next.i ∧ (next.i - st.i) * len ≤ result.landed) ∨
      ∃ total, after = .done (some total) ∧ (lens.length - st.i) * len ≤ result.landed := by
    intro outcome
    rcases pwritevAfter_spend outcome with gone | ⟨stall, rfl⟩
    · exact .inl gone
    · exact .inr (.inl ⟨_, rfl, le_rfl, by simp⟩)
  rcases result with (_ | w) | ⟨(_ | _ | _), landed⟩
  · exact .inl outcome
  · have left : ∀ l ∈ lens.drop st.i, l = len := fun l among =>
      equal l (List.mem_of_mem_drop among)
    have fits := iovCompleteCount_mul_le left (w + 1)
    simp only [pwritevAfter] at outcome
    split at outcome
    · exact spent outcome
    · split at outcome
      · next complete =>
        refine .inr (.inr ⟨_, outcome, le_trans (Nat.mul_le_mul_right _ ?_) fits⟩)
        omega
      · refine .inr (.inl ⟨_, outcome, Nat.le_add_right _ _, ?_⟩)
        simpa [IoResult.landed] using fits
  · exact spent outcome
  · exact .inl outcome
  · exact .inl outcome

end NoxDB

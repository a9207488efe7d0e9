import Mathlib.Tactic.Ring

/-! # Multiplicative hashing

The hash of a key is the top part of its product with a fixed multiplier in modular arithmetic.
Two keys collide only if the product of their distance is within one bucket of a multiple of the
modulus.  So a multiplier that keeps the products of all small distances away from the multiples
separates all keys of a window of that size, wherever the window lies.
-/

namespace Library.Hashing

variable {multiplier modulus width bound : Nat}

/-- The bucket of a key, with buckets of `width` products. -/
def bucket (multiplier modulus width key : Nat) : Nat := key * multiplier % modulus / width

/-- No distance below `bound` has its product within one bucket of a multiple of the modulus. -/
def Spreads (multiplier modulus width bound : Nat) : Prop :=
  ∀ distance < bound, 0 < distance →
    width ≤ distance * multiplier % modulus ∧ distance * multiplier % modulus + width ≤ modulus

instance : Decidable (Spreads multiplier modulus width bound) := Nat.decidableBallLT _ _

/-- The distances row by row. -/
theorem Spreads.of_rows (rows columns : Nat) (enough : bound ≤ rows * columns)
    (each : ∀ row < rows, ∀ column < columns, row * columns + column < bound →
      0 < row * columns + column →
      width ≤ (row * columns + column) * multiplier % modulus ∧
        (row * columns + column) * multiplier % modulus + width ≤ modulus) :
    Spreads multiplier modulus width bound := by
  intro distance less positive
  have split : distance / columns * columns + distance % columns = distance :=
    Nat.div_add_mod' distance columns
  have some_ : 0 < columns := by
    rcases Nat.eq_zero_or_pos columns with rfl | some_
    · simp only [Nat.mul_zero] at enough
      omega
    · exact some_
  have row : distance / columns < rows :=
    Nat.div_lt_of_lt_mul (by rw [Nat.mul_comm]; exact lt_of_lt_of_le less enough)
  have found := each (distance / columns) row (distance % columns) (Nat.mod_lt _ some_)
  rw [split] at found
  exact found less positive

/-- Two products of the same bucket are less than a bucket apart. -/
theorem sub_lt_of_div_eq {x y : Nat} (positive : 0 < width) (same : x / width = y / width) :
    x < y + width := by
  have low := Nat.div_mul_le_self y width
  have high : x < (x / width + 1) * width := by
    rw [Nat.add_mul, Nat.one_mul]
    have split := Nat.div_add_mod' x width
    have room := Nat.mod_lt x positive
    omega
  rw [same, Nat.add_mul, Nat.one_mul] at high
  omega

theorem bucket_ne_add (key : Nat) {distance : Nat} (inside : 0 < modulus) (positive : 0 < width)
    (away : width ≤ distance * multiplier % modulus)
    (below : distance * multiplier % modulus + width ≤ modulus) :
    bucket multiplier modulus width key ≠ bucket multiplier modulus width (key + distance) := by
  intro same
  have first := sub_lt_of_div_eq positive same
  have second := sub_lt_of_div_eq positive same.symm
  -- The later product is the earlier one and that of the distance, with at most one wrap.
  have sum : (key + distance) * multiplier % modulus =
      (key * multiplier % modulus + distance * multiplier % modulus) % modulus := by
    rw [Nat.add_mul, Nat.add_mod]
  have small := Nat.mod_lt (key * multiplier) inside
  generalize key * multiplier % modulus = x at *
  generalize distance * multiplier % modulus = δ at *
  rw [sum] at first second
  by_cases wraps : x + δ < modulus
  · rw [Nat.mod_eq_of_lt wraps] at second
    omega
  · have less : x + δ - modulus < modulus := by omega
    rw [Nat.mod_eq_sub_mod (Nat.not_lt.mp wraps), Nat.mod_eq_of_lt less] at first
    omega

/-- All keys of a window have different buckets. -/
theorem Spreads.injective (spreads : Spreads multiplier modulus width bound) (inside : 0 < modulus)
    (positive : 0 < width) {low first second : Nat} (firstLow : low ≤ first)
    (firstHigh : first < low + bound) (secondLow : low ≤ second) (secondHigh : second < low + bound)
    (same : bucket multiplier modulus width first = bucket multiplier modulus width second) :
    first = second := by
  by_contra differ
  rcases Nat.lt_or_gt_of_ne differ with less | less
  · obtain ⟨away, below⟩ := spreads (second - first) (by omega) (by omega)
    have apart := bucket_ne_add first inside positive away below
    rw [Nat.add_sub_cancel' less.le] at apart
    exact apart same
  · obtain ⟨away, below⟩ := spreads (first - second) (by omega) (by omega)
    have apart := bucket_ne_add second inside positive away below
    rw [Nat.add_sub_cancel' less.le] at apart
    exact apart same.symm

end Library.Hashing

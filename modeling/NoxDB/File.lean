import NoxDB.Config

/-! # The backing file

A file is its size and its bytes; a byte at or past the end of file reads as zero,
which the structure carries.  `File.pwrite` is the effect of a positioned write
that transferred its first `len` bytes, `File.available` the count a positioned
read returns when it is short only at the end of file.
-/

namespace NoxDB

@[ext]
structure File where
  size : Nat
  byte : Nat → UInt8
  zero_past : ∀ x, size ≤ x → byte x = 0

namespace File

/-- A file of `size` bytes with the given contents. -/
def ofBytes (size : Nat) (contents : Nat → UInt8) : File where
  size := size
  byte := fun x => if x < size then contents x else 0
  zero_past := fun _ past => if_neg (by omega)

/-- The first `len` bytes of `src` land at `off`; a write of nothing does not
extend the file. -/
def pwrite (file : File) (off len : Nat) (src : Nat → UInt8) : File where
  size := if len = 0 then file.size else max file.size (off + len)
  byte := fun x => if off ≤ x ∧ x < off + len then src (x - off) else file.byte x
  zero_past := by
    intro x past
    have outside : ¬ (off ≤ x ∧ x < off + len) := by split at past <;> omega
    rw [if_neg outside]
    exact file.zero_past x (by split at past <;> omega)

def available (file : File) (off len : Nat) : Nat := min len (file.size - off)

theorem pwrite_byte (file : File) (off len : Nat) (src : Nat → UInt8) (x : Nat) :
    (file.pwrite off len src).byte x =
      if off ≤ x ∧ x < off + len then src (x - off) else file.byte x := rfl

/-- What a read that is short only at the end of file leaves undelivered is zero. -/
theorem byte_of_available_le (file : File) {off len x : Nat} (inside : x < len)
    (undelivered : file.available off len ≤ x) : file.byte (off + x) = 0 := by
  apply file.zero_past
  simp only [available] at undelivered
  omega

/-- Writing `left` and then `right` behind it is writing both at once. -/
theorem pwrite_append (file : File) (off : Nat) (left right : List UInt8) :
    (file.pwrite off left.length (left.getD · 0)).pwrite (off + left.length) right.length
        (right.getD · 0) =
      file.pwrite off (left ++ right).length ((left ++ right).getD · 0) := by
  refine File.ext ?_ (funext fun x => ?_)
  · simp only [pwrite, List.length_append]
    split_ifs <;> omega
  · rw [pwrite_byte, pwrite_byte, pwrite_byte]
    have whole : (left ++ right).length = left.length + right.length := List.length_append
    rcases lt_or_ge x (off + left.length) with early | late
    · rw [if_neg (by omega)]
      by_cases inside : off ≤ x
      · rw [if_pos (by omega), if_pos (by omega), List.getD_eq_getElem?_getD,
          List.getD_eq_getElem?_getD, List.getElem?_append_left (by omega)]
      · rw [if_neg (by omega), if_neg (by omega)]
    · by_cases inside : x < off + left.length + right.length
      · rw [if_pos (by omega), if_pos (by omega), List.getD_eq_getElem?_getD,
          List.getD_eq_getElem?_getD, List.getElem?_append_right (by omega)]
        congr 2
        omega
      · rw [if_neg (by omega), if_neg (by omega), if_neg (by omega)]

end File

end NoxDB

import Mathlib.Algebra.Order.Group.Nat
import Mathlib.Tactic.Linarith

/-! # Compile-time constants and the two page hashes

The constants of `noxdb_config.h`, the geometry of the page index
(`page_index.c`) and the hash of the writeback guard (`otflush.c`).  Byte offsets
are natural numbers; where the source computes in `uint64_t` the reduction modulo
`2 ^ 64` is written out.
-/

namespace NoxDB

/-- `NOX_BLOCK_SIZE` -/
abbrev blockSize : Nat := 4096

/-- `NOX_DATAZONE_SIZE` -/
abbrev zoneSize : Nat := 262144

/-- `NOX_DIRECT_THRESHOLD` -/
abbrev directThreshold : Nat := 1048576

/-- `NOX_PWRITEV_MAX_IOV` -/
abbrev pwritevMaxIov : Nat := 8

/-- `NOX_BCOUNT_BUSY_THRESHOLD` -/
abbrev bcountBusyThreshold : Nat := 4194304

/-- The range of `uint64_t`. -/
abbrev word : Nat := 2 ^ 64

/-- What a build can override: the number of header entries and the two marks of
the backpressure gate, with the bounds that the static assertion in
`scrap_page.h` and the assertion in `nox_watermark_arm` put on them. -/
structure Config where
  maxEntries : Nat
  high : Nat
  low : Nat
  maxEntries_pos : 1 ≤ maxEntries
  maxEntries_le : maxEntries ≤ 255
  low_lt_high : low < high

/-- The constants of an ordinary build. -/
def Config.standard : Config where
  maxEntries := 64
  high := 4096
  low := 3072
  maxEntries_pos := by decide
  maxEntries_le := by decide
  low_lt_high := by decide

/-- A build whose gate closes at the first page. -/
def Config.narrow : Config where
  maxEntries := 64
  high := 1
  low := 0
  maxEntries_pos := by decide
  maxEntries_le := by decide
  low_lt_high := by decide

/-- A build whose pages have a single header entry. -/
def Config.oneEntry : Config where
  maxEntries := 1
  high := 4096
  low := 3072
  maxEntries_pos := by decide
  maxEntries_le := by decide
  low_lt_high := by decide

/-- `NOX_PAGE_BASE`: clear the low 18 bits of a 64-bit offset. -/
def pageBase (offset : Nat) : Nat := offset - offset % zoneSize

/-- The Fibonacci multiplier `2^64 / φ` of both hashes. -/
def fibonacciMultiplier : Nat := 0x9E3779B97F4A7C15

/-- The top `bits` bits of the 64-bit product of the page number. -/
def fibonacciHash (bits base : Nat) : Nat :=
  (base / zoneSize * fibonacciMultiplier % word) / 2 ^ (64 - bits)

/-- `pi_hash`: the bucket of a base, `PI_BITS = 10`. -/
def piHash (base : Nat) : Nat := fibonacciHash 10 base

/-- `pi_shard`: the top `NOX_INDEX_SHARD_BITS = 6` bits of a bucket number. -/
def piShard (bucket : Nat) : Nat := bucket / 2 ^ 4

/-- `PI_BUCKETS` -/
abbrev piBuckets : Nat := 1024

/-- `wb_slot`: the guard slot of a base, `NOX_WB_GUARD_BITS = 13`. -/
def wbSlot (base : Nat) : Nat := fibonacciHash 13 base

theorem pageBase_le (offset : Nat) : pageBase offset ≤ offset := Nat.sub_le _ _

theorem zoneSize_dvd_pageBase (offset : Nat) : zoneSize ∣ pageBase offset :=
  Nat.dvd_sub_mod offset

theorem pageBase_add_mod (offset : Nat) : pageBase offset + offset % zoneSize = offset :=
  Nat.sub_add_cancel (Nat.mod_le _ _)

theorem lt_pageBase_add (offset : Nat) : offset < pageBase offset + zoneSize := by
  have room : offset % zoneSize < zoneSize := Nat.mod_lt _ (by decide)
  have split := pageBase_add_mod offset
  omega

/-- Two windows that share a byte are the same window. -/
theorem base_unique {first second x : Nat} (firstAligned : zoneSize ∣ first)
    (secondAligned : zoneSize ∣ second) (firstLow : first ≤ x) (firstHigh : x < first + zoneSize)
    (secondLow : second ≤ x) (secondHigh : x < second + zoneSize) : first = second := by
  obtain ⟨i, rfl⟩ := firstAligned
  obtain ⟨j, rfl⟩ := secondAligned
  simp only [zoneSize] at *
  omega

theorem piHash_lt (base : Nat) : piHash base < piBuckets := by
  have bound : base / zoneSize * fibonacciMultiplier % word < word := Nat.mod_lt _ (by decide)
  simp only [piHash, fibonacciHash]
  exact Nat.div_lt_of_lt_mul (by simpa [word, piBuckets] using bound)

end NoxDB

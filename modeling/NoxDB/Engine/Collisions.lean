import NoxDB.Engine.Assembly
import NoxDB.Engine.Backpressure
import NoxDB.Library.Hashing

/-! # Collisions of the two page hashes

Both hashes of a base multiply its page number by `2^64 / φ` and keep the top bits.  The multiples
of the golden ratio stay away from the integers as long as they can, so the hashes separate all
pages of a window of the file: a bucket of the index is shared by no two pages less than 610 pages
apart, a slot of the writeback guard by none less than 4181 apart, and a shard by none less than 34
apart.  In such windows the chains of the index have one page, and the guard, which is allowed to
make Stage-1 wait for another base, never does.
-/

namespace NoxDB

open Library.Hashing
open Library.Counting

theorem buckets_spread : Spreads fibonacciMultiplier word (2 ^ 54) 610 := by decide +kernel

theorem shards_spread : Spreads fibonacciMultiplier word (2 ^ 58) 34 := by decide +kernel

theorem slots_spread : Spreads fibonacciMultiplier word (2 ^ 51) 4181 :=
  .of_rows 66 64 (by decide) (by decide +kernel)

/-- The page number of `base` is in a window of `size` pages from `low` on. -/
def InWindow (low size base : Nat) : Prop := low ≤ base / zoneSize ∧ base / zoneSize < low + size

instance (low size base : Nat) : Decidable (InWindow low size base) :=
  inferInstanceAs (Decidable (_ ∧ _))

variable {low first second : Nat}

/-- Two bases with the same page number are the same. -/
theorem eq_of_pageNumber (firstAligned : zoneSize ∣ first) (secondAligned : zoneSize ∣ second)
    (same : first / zoneSize = second / zoneSize) : first = second := by
  rw [← Nat.div_mul_cancel firstAligned, ← Nat.div_mul_cancel secondAligned, same]

theorem piHash_injective (firstInside : InWindow low 610 first)
    (secondInside : InWindow low 610 second) (firstAligned : zoneSize ∣ first)
    (secondAligned : zoneSize ∣ second) (same : piHash first = piHash second) : first = second := by
  refine eq_of_pageNumber firstAligned secondAligned ?_
  exact buckets_spread.injective (by decide) (by decide) firstInside.1 firstInside.2
    secondInside.1 secondInside.2 same

theorem wbSlot_injective (firstInside : InWindow low 4181 first)
    (secondInside : InWindow low 4181 second) (firstAligned : zoneSize ∣ first)
    (secondAligned : zoneSize ∣ second) (same : wbSlot first = wbSlot second) : first = second := by
  refine eq_of_pageNumber firstAligned secondAligned ?_
  exact slots_spread.injective (by decide) (by decide) firstInside.1 firstInside.2
    secondInside.1 secondInside.2 same

theorem shardOf_injective (firstInside : InWindow low 34 first)
    (secondInside : InWindow low 34 second) (firstAligned : zoneSize ∣ first)
    (secondAligned : zoneSize ∣ second)
    (same : Engine.shardOf first = Engine.shardOf second) : first = second := by
  refine eq_of_pageNumber firstAligned secondAligned ?_
  refine shards_spread.injective (by decide) (by decide) firstInside.1 firstInside.2
    secondInside.1 secondInside.2 ?_
  simp only [Engine.shardOf, piShard, piHash, fibonacciHash, Nat.div_div_eq_div_mul] at same
  exact same

/-! ## Runs in a window -/

open Function (update)
open Library.Runs

variable {n size : Nat} {cfg : Config} {file : File} {scratch : Nat → UInt8} {s s' : Engine n}
  {label : Label n}

/-- The pages of all bytes of the call are in the window. -/
def Call.InWindow (low size : Nat) (call : Call) : Prop :=
  ∀ done < call.size, NoxDB.InWindow low size (call.base done)

/-- Calls on the scrap path stay in the window. -/
def StaysIn (low size : Nat) (_ : Engine n) : Label n → Prop
  | .call _ call => call.isDirect = false → call.InWindow low size
  | _ => True

/-- A larger window holds what a smaller one does. -/
theorem StaysIn.widen {wider : Nat} (more : size ≤ wider) (stays : StaysIn low size s label) :
    StaysIn low wider s label := by
  cases label with
  | call t call =>
    intro scrap done inside
    obtain ⟨above, below⟩ := stays scrap done inside
    exact ⟨above, by omega⟩
  | _ => trivial

structure Windowed (low size : Nat) (s : Engine n) : Prop where
  calls : ∀ t call done pc, s.fg t = .scrap call done pc → call.InWindow low size ∧ done < call.size
  pages : ∀ p < s.created, InWindow low size (s.pages p).base

namespace Windowed

theorem update (windowed : Windowed low size s) {t : Fin n} {f : Fg} (fg : s'.fg = update s.fg t f)
    (here : ∀ call done pc, f = .scrap call done pc →
      call.InWindow low size ∧ done < call.size) :
    ∀ t call done pc, s'.fg t = .scrap call done pc →
      call.InWindow low size ∧ done < call.size := by
  intro u call done pc position
  rw [fg] at position
  by_cases same : u = t
  · subst same
    exact here call done pc (by simpa using position)
  · exact windowed.calls u call done pc (by simpa [same] using position)

theorem calls_step (windowed : Windowed low size s) (stays : StaysIn low size s label)
    (move : FgMove cfg s label s') :
    ∀ t call done pc, s'.fg t = .scrap call done pc →
      call.InWindow low size ∧ done < call.size := by
  cases move with
  | callZero => exact windowed.calls
  | callScrap position running nonempty scrap =>
    refine windowed.update rfl ?_
    rintro call done pc ⟨⟩
    exact ⟨stays scrap, Nat.pos_of_ne_zero nonempty⟩
  | unlockMore position more =>
    refine windowed.update rfl ?_
    rintro call done pc ⟨⟩
    exact ⟨(windowed.calls _ _ _ _ position).1, more⟩
  | callDirect | oomPage | oomDirect | unlockDone | pwrite => exact windowed.update rfl (by simp)
  | gatePass position | gatePark position | parkedPass position | lookupFound position
  | alloc position | lockPage position | decide position | partialInc position
  | partialPush position | fullInc position | fullEnter position | fullPush position
  | unlockRetry position | detach position =>
    refine windowed.update rfl ?_
    rintro call done pc ⟨⟩
    exact windowed.calls _ _ _ _ position

theorem step (windowed : Windowed low size s) (sound : Sound cfg s) (stays : StaysIn low size s label)
    (move : Move cfg s label s') : Windowed low size s' where
  calls := by
    cases move with
    | fg move => exact windowed.calls_step stays move
    | stage1 move | stage2 move | closer move =>
      have same : s'.fg = s.fg := by cases move <;> rfl
      rw [same]
      exact windowed.calls
  pages := by
    intro p current
    rcases old_or_new move current with old | ⟨t, call, done, zone, position, page⟩
    · rw [base_stable (sound.refines move) p old]
      exact windowed.pages p old
    · obtain ⟨inside, more⟩ := windowed.calls t call done _ position
      rw [page]
      exact inside done more

theorem of_run (run : Run (Engine.step cfg) (StaysIn low size) (Engine.init n cfg file scratch) s) :
    Windowed low size s := by
  refine run.invariant_along (Sound cfg) (Windowed low size)
    (fun earlier => sound_of_run earlier) ?_ fun sound windowed stays stepped =>
      windowed.step sound stays (move_of_step stepped)
  constructor <;> simp [Engine.init]

end Windowed

theorem chain_short (ordinary : Ordinary cfg s) (windowed : Windowed low 610 s) (b : Nat) :
    (s.buckets b).length ≤ 1 := by
  cases chain : s.buckets b with
  | nil => simp
  | cons p rest =>
    cases rest with
    | nil => simp
    | cons q rest =>
      have owned := ordinary.sound.owned
      have here : p ∈ s.buckets b := by simp [chain]
      have there : q ∈ s.buckets b := by simp [chain]
      obtain ⟨⟨first, -⟩, firstHash⟩ := owned.indexed b p here
      obtain ⟨⟨second, -⟩, secondHash⟩ := owned.indexed b q there
      have same : (s.pages p).base = (s.pages q).base :=
        piHash_injective (windowed.pages p first) (windowed.pages q second)
          (ordinary.placed p first).1 (ordinary.placed q second).1
          (firstHash.trans secondHash.symm)
      have equal : p = q := owned.single b p here q there same
      have nodup : (s.buckets b).Nodup := owned.chain b
      simp [chain, equal] at nodup

theorem guard_exact (ordinary : Ordinary cfg s) (windowed : Windowed low 4181 s) {base : Nat}
    (aligned : zoneSize ∣ base) (inside : InWindow low 4181 base) :
    0 < s.wb (wbSlot base) ↔ ∃ p ∈ s.guarded, (s.pages p).base = base := by
  have guard := ordinary.sound.guard
  constructor
  · intro busy
    rw [guard.tally, List.countP_pos_iff] at busy
    obtain ⟨p, member, same⟩ := busy
    have current := guard.lt_created ordinary.sound.owned p member
    exact ⟨p, member, wbSlot_injective (windowed.pages p current) inside
      (ordinary.placed p current).1 aligned (by simpa using same)⟩
  · rintro ⟨p, member, rfl⟩
    exact guard.tally.pos_of_mem member

/-- In a run whose calls stay within 610 consecutive pages of the file no two pages ever share a
bucket of the index; if they stay within 4181 consecutive pages, the writeback guard is busy for a
base exactly if a page of that very base is between `wb_guard_enter` and `wb_guard_leave`; and the
bases of 34 consecutive pages have different shards. -/
theorem windows_do_not_collide
    (run : Run (Engine.step cfg) (StaysIn low 4181) (Engine.init n cfg file scratch) s) :
    (Run (Engine.step cfg) (StaysIn low 610) (Engine.init n cfg file scratch) s →
      ∀ b, (s.buckets b).length ≤ 1) ∧
    (∀ base, zoneSize ∣ base → InWindow low 4181 base →
      (0 < s.wb (wbSlot base) ↔ ∃ p ∈ s.guarded, (s.pages p).base = base)) ∧
    ∀ first second, zoneSize ∣ first → zoneSize ∣ second → InWindow low 34 first →
      InWindow low 34 second → first ≠ second →
      Engine.shardOf first ≠ Engine.shardOf second := by
  refine ⟨fun narrow b => ?_, fun base aligned inside => ?_, ?_⟩
  · exact chain_short (ordinary_of_run narrow) (Windowed.of_run narrow) b
  · exact guard_exact (ordinary_of_run run) (Windowed.of_run run) aligned inside
  · intro first second firstAligned secondAligned firstInside secondInside differ same
    exact differ (shardOf_injective firstInside secondInside firstAligned secondAligned same)

instance (call : Call) : Decidable (call.InWindow low size) :=
  inferInstanceAs (Decidable (∀ done < call.size, _ ∧ _))

instance (s : Engine n) (label : Label n) : Decidable (StaysIn low size s label) :=
  match label with
  | .call _ call => inferInstanceAs (Decidable (call.isDirect = false → call.InWindow low size))
  | .fg _ | .alloc _ _ _ | .oom _ | .pwrite _ _ | .stage1 | .pread _ | .stage2 | .pwritev _ | .close
  | .closer | .closeFd _ => inferInstanceAs (Decidable True)

/-- Two neighbouring pages: each is alone in its bucket, and when the first is in Queue-2 the guard
is busy for it and not for the second. -/
theorem windows_do_not_collide_of_neighbours :
    ∃ s : Engine 1, Run (Engine.step .standard) (StaysIn 0 610)
        (Engine.init 1 .standard emptyFile fun _ => 0) s ∧
      s.q1 = [1] ∧ s.q2 = [0] ∧ (∀ b, (s.buckets b).length ≤ 1) ∧
      (∃ p ∈ s.guarded, (s.pages p).base = 0) ∧
      ¬ (∃ p ∈ s.guarded, (s.pages p).base = zoneSize) ∧
      Engine.shardOf 0 ≠ Engine.shardOf zoneSize := by
  obtain ⟨s, narrow, first, second, busy, quiet⟩ :=
    exists_run .standard emptyFile (fun _ => 0) (fun (s : Engine 1) label => StaysIn 0 610 s label)
      (fun _ _ passed => of_decide_eq_true passed)
      (tinyWrite ++ tinyNext ++ tinyFill)
      (fun s => s.q1 = [1] ∧ s.q2 = [0] ∧ 0 < s.wb (wbSlot 0) ∧ s.wb (wbSlot zoneSize) = 0)
      (by decide +kernel)
  obtain ⟨alone, exactly, shards⟩ := windows_do_not_collide
    (narrow.weaken fun _ _ stays => stays.widen (by decide : 610 ≤ 4181))
  refine ⟨s, narrow, first, second, alone narrow, (exactly 0 (by decide) ?_).mp busy, ?_, ?_⟩
  · decide
  · rw [← exactly zoneSize (dvd_refl _) (by decide)]
    omega
  · exact shards 0 zoneSize (by decide) (dvd_refl _) (by decide) (by decide) (by decide)

-- The windows are as large as they can be.
example : piHash 0 = piHash (zoneSize * 610) ∧ wbSlot 0 = wbSlot (zoneSize * 4181) ∧
    Engine.shardOf 0 = Engine.shardOf (zoneSize * 34) := by
  decide

end NoxDB

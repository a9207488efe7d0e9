import NoxDB.Engine.Drain
import Mathlib.Algebra.Order.BigOperators.Group.Finset

/-! # The backpressure gate of a running engine

`g_live` is the number of live pages, and a writer that has passed the gate and not yet
allocated adds at most one to it, so the level never exceeds the high mark by more than
the number of writers.  A parked writer is released by frees alone, and only Stage-2
frees: what keeps the gate live is that pages which strand after a failed read stay
below the low mark.
-/

namespace NoxDB

open Function (update)
open Library.Runs
open Library.Counting

variable {n : Nat}

/-- The engine as `nox_open` returns it when the process had `live` pages before. -/
def Engine.openAt (n : Nat) (cfg : Config) (file : File) (scratch : Nat → UInt8) (live : Nat) :
    Engine n :=
  { Engine.init n cfg file scratch with
    watermark := { (Engine.init n cfg file scratch).watermark with live } }

/-- A thread that has passed the gate and not yet looked up its page. -/
def Fg.token : Fg → Nat
  | .scrap _ _ .lookup => 1
  | _ => 0

def Engine.tokens (s : Engine n) : Nat := ∑ t, (s.fg t).token

variable {cfg : Config} {file : File} {scratch : Nat → UInt8} {s s' : Engine n} {label : Label n}
  {before : Nat}

theorem Sound.openAt (cfg : Config) (file : File) (scratch : Nat → UInt8) (live : Nat) :
    Sound cfg (Engine.openAt n cfg file scratch live) where
  owned := .init cfg file scratch
  load := { Load.init (n := n) cfg file scratch with }
  ready := { Ready.init (n := n) cfg file scratch with }
  pending := Pending.init cfg file scratch
  guard := { Guard.init (n := n) cfg file scratch with }
  phases := { Phases.init (n := n) cfg file scratch with }
  walk := .of_elsewhere rfl

theorem Level.openAt (cfg : Config) (file : File) (scratch : Nat → UInt8) (live : Nat) :
    Level live (Engine.openAt n cfg file scratch live) := rfl

theorem level_of_run {condition : Engine n → Label n → Prop}
    (run : Run (Engine.step cfg) condition (Engine.openAt n cfg file scratch before) s) :
    Sound cfg s ∧ Level before s := by
  apply run.invariant fun s => Sound cfg s ∧ Level before s
  · exact ⟨.openAt cfg file scratch before, .openAt cfg file scratch before⟩
  · rintro middle last label ⟨sound, level⟩ - stepped
    have move := move_of_step stepped
    exact ⟨sound.move move, level.step sound move⟩

theorem Fg.token_le (f : Fg) : f.token ≤ 1 := by
  unfold Fg.token
  split <;> omega

theorem tokens_le (s : Engine n) : s.tokens ≤ n := by
  calc s.tokens ≤ ∑ _ : Fin n, 1 := Finset.sum_le_sum fun t _ => (s.fg t).token_le
    _ = n := by simp

theorem tokens_update (s : Engine n) {t : Fin n} {f : Fg} (position : s.fg t = f) (next : Fg) :
    ∑ t', (update s.fg t next t').token + f.token = s.tokens + next.token := by
  have weighed := weigh_update Fg.token s.fg t next
  rwa [position] at weighed

theorem tokens_drop {t : Fin n} {f next : Fg} (position : s.fg t = f) (none : next.token = 0) :
    ∑ t', (update s.fg t next t').token ≤ s.tokens := by
  have weighed := tokens_update s position next
  omega

/-! ## The ceiling -/

/-- The marks are those of the build, and while the gate is armed the level together with the
threads that may still raise it stays within the bound. -/
structure Ceiling (cfg : Config) (s : Engine n) : Prop where
  high : s.watermark.high = cfg.high
  low : s.watermark.low = cfg.low
  bound : s.watermark.armed = true → s.watermark.live + s.tokens ≤ cfg.high - 1 + n

namespace Ceiling

theorem openAt (file : File) (scratch : Nat → UInt8) (below : before < cfg.high) :
    Ceiling cfg (Engine.openAt n cfg file scratch before) where
  high := rfl
  low := rfl
  bound := fun _ => by
    have none : (Engine.openAt n cfg file scratch before).tokens = 0 := by
      simp [Engine.tokens, Engine.openAt, Engine.init, Fg.token]
    rw [none]
    simp only [Engine.openAt]
    omega

/-- A step that does not raise the level or the number of tokens. -/
theorem keep (ceiling : Ceiling cfg s) (high : s'.watermark.high = s.watermark.high)
    (low : s'.watermark.low = s.watermark.low)
    (armed : s'.watermark.armed = true → s.watermark.armed = true)
    (bound : s'.watermark.live + s'.tokens ≤ s.watermark.live + s.tokens) : Ceiling cfg s' where
  high := high.trans ceiling.high
  low := low.trans ceiling.low
  bound := fun set => bound.trans (ceiling.bound (armed set))

/-- A thread passes the gate: it found the level below the high mark. -/
theorem pass (ceiling : Ceiling cfg s) {f : Fin n → Fg}
    (room : s.watermark.armed = false ∨ s.watermark.live < s.watermark.high) :
    Ceiling cfg { s with fg := f } where
  high := ceiling.high
  low := ceiling.low
  bound := fun set => by
    have few := tokens_le { s with fg := f }
    have room := room.resolve_left (by simpa using set)
    rw [ceiling.high] at room
    dsimp only
    omega

theorem fg (ceiling : Ceiling cfg s) (move : FgMove cfg s label s') : Ceiling cfg s' := by
  have high := ceiling.high
  have low := ceiling.low
  cases move with
  | callZero => exact ceiling.keep rfl rfl id le_rfl
  | gatePass position room => exact ceiling.pass room
  | parkedPass position released =>
    refine ceiling.pass (released.imp_right fun released => ?_)
    have marks := cfg.low_lt_high
    omega
  | @alloc t call done address zone position =>
    -- The token becomes a page.
    have spent : ∑ t', (update s.fg t (.scrap call done (.held s.created true)) t').token + 1 =
        s.tokens := tokens_update s position _
    refine ceiling.keep rfl rfl id ?_
    simp only [Engine.tokens] at spent ⊢
    omega
  | @decide t call done p created position decision decided =>
    refine ceiling.keep rfl rfl id (Nat.add_le_add_left (tokens_drop position ?_) _)
    rw [Decision.next]
    split <;> rfl
  | callDirect position | callScrap position | gatePark position | lookupFound position
  | oomPage position | oomDirect position | lockPage position | partialInc position
  | partialPush position | fullInc position | fullEnter position | fullPush position
  | unlockMore position | unlockDone position | unlockRetry position | detach position
  | pwrite position =>
    exact ceiling.keep rfl rfl id (Nat.add_le_add_left (tokens_drop position rfl) _)

theorem step (ceiling : Ceiling cfg s) (move : Move cfg s label s') : Ceiling cfg s' := by
  cases move with
  | fg move => exact ceiling.fg move
  | stage1 move => cases move <;> exact ceiling.keep rfl rfl id le_rfl
  | stage2 move =>
    cases move with
    | free => exact ceiling.keep rfl rfl id (Nat.add_le_add_right (Nat.sub_le _ _) _)
    | _ => exact ceiling.keep rfl rfl id le_rfl
  | closer move =>
    cases move with
    | disarm => exact ceiling.keep rfl rfl (by simp) le_rfl
    | destroy => exact ceiling.keep rfl rfl id (Nat.add_le_add_right (Nat.sub_le _ _) _)
    | _ => exact ceiling.keep rfl rfl id le_rfl

end Ceiling

/-- Ten bytes of the second zone. -/
def tinySecond : Call where
  buf := fun i => UInt8.ofNat (i + 1)
  size := 10
  offset := zoneSize
  size_lt := ten_lt_word
  offset_lt := zoneSize_lt_word

/-- The writer of the small run writes to the second zone, into a page of its own. -/
def tinyNext : List (Label 1) :=
  [.call 0 tinySecond, .fg 0, .alloc 0 8 (fun _ => 1), .fg 0, .fg 0, .fg 0, .fg 0]

/-- The thread is between its gate check and its return. -/
def Fg.admitted : Fg → Bool
  | .scrap _ _ .gate | .scrap _ _ .parked => false
  | .scrap _ _ _ => true
  | _ => false

def Fg.isParked : Fg → Bool
  | .scrap _ _ .parked => true
  | _ => false

/-- A writer sleeps on the gate above the low mark, and every other writer is outside. -/
structure Asleep (s : Engine n) : Prop where
  armed : s.watermark.armed = true
  parked : ∃ t, (s.fg t).isParked = true
  outside : ∀ t, (s.fg t).admitted = false
  above : s.watermark.low < s.watermark.live

/-- Some page is queued or in the hands of a stage. -/
def Releasing (s : Engine n) : Prop := ∃ p, p ∈ s.q1 ++ s.q2 ++ s.s1.pages ++ s.s2.pages

/-- The live pages that are in no queue, in no stage's hands and about to be pushed by nobody. -/
def Engine.stranded (s : Engine n) : List PageId :=
  s.alive.filter fun p =>
    p ∉ s.custody.pipe ∧ p ∉ carriers Role.carried (roleOf s.fg s.closer)

/-- When Stage-1 drops a page, fewer pages than the low mark are stranded already. -/
def FewStranded (cfg : Config) (s : Engine n) : Label n → Prop
  | .stage1 => ∀ p ∈ s.s1.dropping, s.stranded.length < cfg.low
  | _ => True

instance (s : Engine n) (label : Label n) : Decidable (FewStranded cfg s label) :=
  match label with
  | .stage1 => inferInstanceAs (Decidable (∀ p ∈ s.s1.dropping, s.stranded.length < cfg.low))
  | .call _ _ | .fg _ | .alloc _ _ _ | .oom _ | .pwrite _ _ | .pread _ | .stage2 | .pwritev _
  | .close | .closer | .closeFd _ => inferInstanceAs (Decidable True)

theorem mem_stranded {p : PageId} : p ∈ s.stranded ↔ s.custody.Stranded p := by
  have alone : p ∉ carriers Role.carried (roleOf s.fg s.closer) ↔
      ∀ o, (s.custody.role o).carried ≠ some p := by
    rw [mem_carriers, not_exists]
    rfl
  simp only [Engine.stranded, List.mem_filter, decide_eq_true_eq, mem_alive, alone]
  exact ⟨fun ⟨alive, outside, alone⟩ => ⟨alive, outside, alone⟩,
    fun ⟨alive, outside, alone⟩ => ⟨alive, outside, alone⟩⟩

theorem nodup_stranded (s : Engine n) : s.stranded.Nodup := (nodup_alive s).filter _

/-- The number of stranded pages stays within the low mark. -/
theorem stranded_le_step (sound : Sound cfg s) (move : Move cfg s label s')
    (few : FewStranded cfg s label) (within : s.stranded.length ≤ cfg.low) :
    s'.stranded.length ≤ cfg.low := by
  by_cases drops : label = .stage1 ∧ ∃ p, s.s1.dropping = some p
  · obtain ⟨rfl, p, dropping⟩ := drops
    have subset : s'.stranded ⊆ p :: s.stranded := by
      intro q member
      rcases stranded_step sound move (mem_stranded.mp member) with before | ⟨-, same⟩
      · exact List.mem_cons_of_mem _ (mem_stranded.mpr before)
      · obtain rfl : p = q := Option.some.inj (dropping.symm.trans same)
        exact List.mem_cons_self
    have count := ((nodup_stranded s').subperm subset).length_le
    have room := few p dropping
    rw [List.length_cons] at count
    omega
  · have subset : s'.stranded ⊆ s.stranded := by
      intro q member
      rcases stranded_step sound move (mem_stranded.mp member) with before | ⟨stage, same⟩
      · exact mem_stranded.mpr before
      · exact absurd ⟨stage, q, same⟩ drops
    exact ((nodup_stranded s').subperm subset).length_le.trans within

/-- The gate is armed only before `nox_close` drains. -/
theorem phase_of_armed (reached : Reachable cfg file scratch s)
    (armed : s.watermark.armed = true) : s.closer.phase ≤ 1 := by
  have all : s.watermark.armed = true → s.closer.phase ≤ 1 := by
    apply reached.invariant fun s => s.watermark.armed = true → s.closer.phase ≤ 1
    · exact fun _ => by simp [Engine.init, Closer.phase]
    · intro middle last label early _ stepped armed
      cases move_of_step stepped with
      | fg move => cases move <;> exact early armed
      | stage1 move => cases move <;> exact early armed
      | stage2 move => cases move <;> exact early armed
      | closer move =>
        cases move with
        | close => exact le_rfl
        | disarm => simp at armed
        | firstDrain position | sweepBucket position | sweepDone position | sweepFault position
        | sweepLock position | partialInc position | partialPush position | fullInc position
        | fullEnter position | fullPush position | sweepUnlock position | sweepNextFault position
        | sweepNext position | secondDrain position | stopping position | shutdown1 position
        | join1 position | shutdown2 position | join2 position | lastCheck position
        | destroy position | closeFd position =>
          have late := early armed
          simp [position, Closer.phase] at late
  exact all armed

/-- In a run in which Stage-1 drops a page only while fewer pages than the low mark are
stranded, a writer that sleeps on the gate has a page to wait for. -/
theorem release_coming
    (run : Run (Engine.step cfg) (FewStranded cfg) (Engine.init n cfg file scratch) s)
    (asleep : Asleep s) : Releasing s := by
  have reached : Reachable cfg file scratch s := run.weaken fun _ _ _ => trivial
  have sound := sound_of_run run
  have opened : Run (Engine.step cfg) _ (Engine.openAt n cfg file scratch 0) s := run
  have level : Level 0 s := (level_of_run opened).2
  have low := (run.invariant (Ceiling cfg) (.openAt file scratch (Nat.zero_lt_of_lt cfg.low_lt_high))
    fun ceiling _ stepped => ceiling.step (move_of_step stepped)).low
  have within : Sound cfg s ∧ s.stranded.length ≤ cfg.low := by
    apply run.invariant fun s => Sound cfg s ∧ s.stranded.length ≤ cfg.low
    · exact ⟨.init cfg file scratch, Nat.zero_le _⟩
    · rintro middle last label ⟨sound, within⟩ few stepped
      have move := move_of_step stepped
      exact ⟨sound.move move, stranded_le_step sound move few within⟩
  by_contra nothing
  -- Nothing is queued and nobody carries a page, so all live pages are stranded.
  have empty : s.custody.pipe = [] := by
    refine List.eq_nil_iff_forall_not_mem.mpr fun p member => nothing ⟨p, ?_⟩
    simp only [Custody.pipe, Custody.waiting, Engine.custody, Stage2.pages, List.mem_append] at member ⊢
    grind
  have alone : ∀ o p, (s.custody.role o).carried ≠ some p := by
    intro o p
    cases o with
    | fg t =>
      have outside := asleep.outside t
      change (s.fg t).role.carried ≠ some p
      cases position : s.fg t with
      | scrap call done pc => cases pc <;> simp_all [Fg.admitted, Fg.role, ChunkPc.role, Role.carried]
      | _ => simp [Fg.role, Role.carried]
    | closer =>
      have early := phase_of_armed reached asleep.armed
      change s.closer.role.carried ≠ some p
      cases position : s.closer <;> simp_all [Closer.phase, Closer.role, Role.carried]
  have all : s.alive ⊆ s.stranded := fun p member =>
    mem_stranded.mpr ⟨mem_alive.mp member, by simp [empty], fun o => alone o p⟩
  have count := ((nodup_alive s).subperm all).length_le
  have above := asleep.above
  rw [level, low] at above
  omega

/-- The writer of the small run comes back for the second zone and parks. -/
def tinyPark : List (Label 1) := [.call 0 tinySecond, .fg 0]

theorem asleep_of_parked {s : Engine 1} (armed : s.watermark.armed = true)
    (parked : (s.fg 0).isParked = true) (above : s.watermark.low < s.watermark.live) :
    Asleep s := by
  refine ⟨armed, ⟨0, parked⟩, fun t => ?_, above⟩
  obtain rfl : t = 0 := Subsingleton.elim _ _
  unfold Fg.isParked at parked
  split at parked
  · next call done position =>
    rw [position]
    rfl
  · simp at parked

/-- The writer parks while its first page is still in Queue-1. -/
theorem release_coming_of_queued :
    ∃ s : Engine 1, Run (Engine.step .narrow) (FewStranded .narrow)
        (Engine.init 1 .narrow emptyFile fun _ => 0) s ∧ Asleep s ∧ Releasing s := by
  obtain ⟨s, run, armed, parked, above⟩ :=
    exists_run .narrow emptyFile (fun _ => 0)
      (fun s label => FewStranded .narrow s label) (fun _ _ passed => of_decide_eq_true passed)
      (tinyWrite ++ tinyPark)
      (fun s => s.watermark.armed = true ∧ (s.fg 0).isParked = true ∧
        s.watermark.low < s.watermark.live) (by decide +kernel)
  have asleep := asleep_of_parked armed parked above
  exact ⟨s, run, asleep, release_coming run asleep⟩

/-- Stage-1 cannot read the holes of the page and drops it. -/
def tinyDrop : List (Label 1) :=
  [.stage1, .stage1, .stage1, .stage1, .pread .fail, .stage1, .stage1, .stage1]

/-- After a failed read the page counts against the level and is in no queue, and the writer
parks for good. -/
theorem release_coming_dropped :
    ∃ s : Engine 1, Reachable .narrow emptyFile (fun _ => 0) s ∧ Asleep s ∧ ¬ Releasing s := by
  obtain ⟨s, reached, armed, parked, above, nothing⟩ :=
    exists_reachable .narrow emptyFile (fun _ => 0) (tinyWrite ++ tinyDrop ++ tinyPark)
      (fun s => s.watermark.armed = true ∧ (s.fg 0).isParked = true ∧
        s.watermark.low < s.watermark.live ∧ s.q1 ++ s.q2 ++ s.s1.pages ++ s.s2.pages = [])
      (by decide +kernel)
  refine ⟨s, reached, asleep_of_parked armed parked above, ?_⟩
  rintro ⟨p, member⟩
  rw [nothing] at member
  simp at member

end NoxDB

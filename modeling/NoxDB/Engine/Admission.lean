import NoxDB.Engine.Backpressure
import NoxDB.Engine.GuardWait
import NoxDB.Watermark

/-! # The engine uses the gate

The engine has the state of `watermark.c` and parks its writers on it; the gate alone is
modelled call by call, in 32 bits and with the wakeups that are pending.  Here the calls that a
run of the engine makes are written down in their order and the gate is given these calls and no
others: it accepts every one of them, and it puts to sleep and lets go the same threads at the
same calls.  No wakeup without a broadcast is needed for that, since a writer that the engine
lets through was woken.
-/

namespace NoxDB

open Function (update)
open Library.Runs

variable {n : Nat} {cfg : Config} {file : File} {scratch : Nat → UInt8} {s s' : Engine n}
  {label : Label n} {g g' : Gate (Fin n)}

/-! ## The counters have 32 bits -/

/-- Until `nox_close` disarms it the gate is armed. -/
theorem armed_of_phase (reached : Reachable cfg file scratch s) (early : s.closer.phase ≤ 1) :
    s.watermark.armed = true := by
  have all : s.closer.phase ≤ 1 → s.watermark.armed = true := by
    apply reached.invariant fun s => s.closer.phase ≤ 1 → s.watermark.armed = true
    · exact fun _ => rfl
    · intro middle last label armed _ stepped early
      have move := move_of_step stepped
      have before := armed ((phase_mono move).trans early)
      cases move with
      | fg move => cases move <;> exact before
      | stage1 move => cases move <;> exact before
      | stage2 move => cases move <;> exact before
      | closer move =>
        cases move with
        | disarm => simp [Closer.phase] at early
        | _ => exact before
  exact all early

theorem ceiling_of_reachable (reached : Reachable cfg file scratch s) : Ceiling cfg s :=
  reached.invariant (Ceiling cfg) (.openAt file scratch (Nat.zero_lt_of_lt cfg.low_lt_high))
    fun ceiling _ stepped => ceiling.step (move_of_step stepped)

/-- The bound on the level holds after the gate is disarmed too, since nobody allocates then. -/
theorem live_le (reached : Reachable cfg file scratch s) :
    s.watermark.live ≤ cfg.high - 1 + n := by
  apply reached.invariant_along (fun s => Reachable cfg file scratch s)
    fun s => s.watermark.live ≤ cfg.high - 1 + n
  · exact id
  · exact Nat.zero_le _
  · intro middle last label before bound _ stepped
    have after : Reachable cfg file scratch last := .tail before trivial stepped
    have move := move_of_step stepped
    cases move with
    | fg move =>
      have running := (sound_of_run before).phases.running move
      have still : last.closer = middle.closer := by cases move <;> rfl
      have ceiling := (ceiling_of_reachable after).bound
        (armed_of_phase after (by rw [still, running]; exact Nat.zero_le _))
      omega
    | stage1 move => cases move <;> exact bound
    | stage2 move =>
      cases move with
      | free => exact (Nat.sub_le _ _).trans bound
      | _ => exact bound
    | closer move =>
      cases move with
      | destroy => exact (Nat.sub_le _ _).trans bound
      | _ => exact bound

/-- A slot of the writeback guard counts live pages, and perhaps the one freed last. -/
theorem wb_le (reached : Reachable cfg file scratch s) (slot : Nat) :
    s.wb slot ≤ s.watermark.live + 1 := by
  have sound := sound_of_run reached
  have level : Level 0 s := (level_of_run reached).2
  have subset : s.guarded ⊆ s.s2.leaver ++ s.alive := by
    intro p member
    rw [Engine.guarded] at member
    simp only [List.append_assoc] at member
    rcases List.mem_append.mp member with leaver | entered
    · exact List.mem_append_left _ leaver
    · exact List.mem_append_right _ (mem_alive.mpr (alive_of_entered sound entered))
  have counted := ((guarded_nodup sound (departed_of_reachable reached)).subperm subset).length_le
  have few : s.s2.leaver.length ≤ 1 := by cases s.s2 <;> simp [Stage2.leaver]
  have part : s.wb slot ≤ s.guarded.length := by
    rw [sound.guard.tally slot]
    exact List.countP_le_length
  rw [Level] at level
  rw [List.length_append] at counted
  omega

/-- In an engine neither `g_live` nor a slot of the writeback guard wraps. -/
theorem counters_fit (small : cfg.high + n < 2 ^ 32) (reached : Reachable cfg file scratch s) :
    s.watermark.live < 2 ^ 32 ∧ ∀ slot, s.wb slot < 2 ^ 32 := by
  have level := live_le reached
  refine ⟨by omega, fun slot => ?_⟩
  have slots := wb_le reached slot
  have band := cfg.low_lt_high
  omega

/-! ## The calls of the engine -/

/-- The calls of `watermark.c` that a step makes, in their order.  A writer that is woken above
the low mark sleeps on, which is no step of the engine. -/
def Engine.gateCalls (s : Engine n) : Label n → List (GateLabel (Fin n))
  | .fg t =>
    match s.fg t with
    | .scrap _ _ .gate => [.wait t]
    | .scrap _ _ .parked => [.resume t]
    | _ => []
  | .alloc _ _ _ => [.noteAlloc]
  | .stage2 =>
    match s.s2 with
    | .freeing (_ :: _) => [.noteFree]
    | _ => []
  | .closer =>
    match s.closer with
    | .disarm => [.disarm]
    -- `page_index_destroy` frees one page after the other.
    | .destroy _ => List.replicate s.resident.length .noteFree
    | _ => []
  | _ => []

/-- The record of the calls. -/
def Engine.noteGateCalls (s : Engine n) (label : Label n) (calls : List (GateLabel (Fin n))) :
    List (GateLabel (Fin n)) :=
  calls ++ s.gateCalls label

/-- The gate has the module state of the engine, its sleepers are the parked writers, and none of
them has missed a wakeup. -/
structure Follows (cfg : Config) (s : Engine n) (g : Gate (Fin n)) : Prop where
  watermark : g.watermark = s.watermark
  parked : ∀ t, (s.fg t).isParked = true ↔ g.waiter t ≠ .outside
  hysteresis : Hysteresis cfg g
  awake : NoLostWakeup cfg g

/-- The calls take the gate to a state that follows the engine. -/
def Drives (cfg : Config) (g : Gate (Fin n)) (calls : List (GateLabel (Fin n))) (s' : Engine n) :
    Prop :=
  ∃ g', calls.foldlM (Gate.step cfg) g = some g' ∧ Follows cfg s' g'

theorem Waiter.wake_outside (w : Waiter) : w.wake ≠ .outside ↔ w ≠ .outside := by
  cases w <;> simp [wake]

namespace Follows

theorem quiet {calls : List (GateLabel (Fin n))} (follows : Follows cfg s g) (none : calls = [])
    (watermark : s'.watermark = s.watermark)
    (parked : ∀ t, (s'.fg t).isParked = (s.fg t).isParked) : Drives cfg g calls s' := by
  subst none
  refine ⟨g, rfl, { follows with watermark := follows.watermark.trans watermark.symm, parked := ?_ }⟩
  intro t
  rw [parked]
  exact follows.parked t

/-- One call of the gate, and what comes after it. -/
theorem call {call : GateLabel (Fin n)} {calls : List (GateLabel (Fin n))}
    (follows : Follows cfg s g) (move : GateMove cfg g call g') (noWrap : g.NoWrap call)
    (rest : Hysteresis cfg g' → NoLostWakeup cfg g' → Drives cfg g' calls s') :
    Drives cfg g (call :: calls) s' := by
  obtain ⟨last, taken, after⟩ := rest (follows.hysteresis.step move)
    (follows.awake.step follows.hysteresis noWrap move)
  refine ⟨last, ?_, after⟩
  rw [List.foldlM_cons, Gate.step_of_move move]
  exact taken

/-- A step that makes one call. -/
theorem single {call : GateLabel (Fin n)} (follows : Follows cfg s g)
    (move : GateMove cfg g call g') (noWrap : g.NoWrap call)
    (watermark : g'.watermark = s'.watermark)
    (parked : ∀ t, (s'.fg t).isParked = true ↔ g'.waiter t ≠ .outside) : Drives cfg g [call] s' :=
  follows.call move noWrap fun hysteresis awake => ⟨g', rfl, watermark, parked, hysteresis, awake⟩

theorem parked_update (f : Fin n → Fg) {t : Fin n} {next : Fg}
    (same : next.isParked = (f t).isParked) (t' : Fin n) :
    (update f t next t').isParked = (f t').isParked := by
  by_cases mine : t' = t
  · subst mine
    simpa using same
  · simp [mine]

/-- A thread changes between parked and not parked. -/
theorem repark {t : Fin n} {next : Fg} {w : Waiter} (follows : Follows cfg s g)
    (same : next.isParked = true ↔ w ≠ .outside) (t' : Fin n) :
    (update s.fg t next t').isParked = true ↔ update g.waiter t w t' ≠ .outside := by
  by_cases mine : t' = t
  · subst mine
    simpa using same
  · simpa [mine] using follows.parked t'

theorem waiting (follows : Follows cfg s g) {t : Fin n} (outside : (s.fg t).isParked = false) :
    g.waiter t = .outside := by
  by_contra inside
  have parked := (follows.parked t).mpr inside
  simp [outside] at parked

/-- A parked writer whose predicate has become false was woken: no broadcast is missing. -/
theorem woken (follows : Follows cfg s g) {t : Fin n} (parked : (s.fg t).isParked = true)
    (low : s.watermark.low = cfg.low)
    (released : s.watermark.armed = false ∨ s.watermark.live ≤ s.watermark.low) :
    g.waiter t = .asleep true := by
  have inside := (follows.parked t).mp parked
  cases waiter : g.waiter t with
  | outside => exact absurd waiter inside
  | asleep woken =>
    cases woken with
    | true => rfl
    | false =>
      obtain ⟨armed, above⟩ := follows.awake t waiter
      rw [follows.watermark] at armed above
      rcases released with disarmed | below
      · simp [armed] at disarmed
      · omega

theorem fg (follows : Follows cfg s g) (ceiling : Ceiling cfg s)
    (fits : s'.watermark.live < 2 ^ 32) (move : FgMove cfg s label s') :
    Drives cfg g (s.gateCalls label) s' := by
  have watermark := follows.watermark
  cases move with
  | callZero => exact follows.quiet rfl rfl fun _ => rfl
  | @gatePass t call done position room =>
    have outside := follows.waiting (t := t) (by rw [position]; rfl)
    rw [Engine.gateCalls, position]
    refine follows.single (.pass outside (watermark ▸ room)) trivial watermark fun t' => ?_
    rw [parked_update s.fg (by rw [position]; rfl)]
    exact follows.parked t'
  | @gatePark t call done position noRoom =>
    have outside := follows.waiting (t := t) (by rw [position]; rfl)
    rw [Engine.gateCalls, position]
    rw [← watermark, not_or, Bool.not_eq_false, Nat.not_lt] at noRoom
    refine follows.single (.sleep outside noRoom.1 noRoom.2) trivial ?_ ?_
    · simp only [watermark]
    · exact follows.repark (by simp [Fg.isParked])
  | @parkedPass t call done position released =>
    have woken := follows.woken (t := t) (by rw [position]; rfl) ceiling.low released
    rw [Engine.gateCalls, position]
    exact follows.single (.leave woken (watermark ▸ released)) trivial watermark
      (follows.repark (by simp [Fg.isParked]))
  | @alloc t call done address zone position =>
    have below : s.watermark.live + 1 < 2 ^ 32 := fits
    refine follows.single .noteAlloc ?_ ?_ fun t' => ?_
    · intro last
      rw [watermark] at last
      omega
    · simp only [Gate.noteAlloc, watermark, Nat.mod_eq_of_lt below]
    · rw [parked_update s.fg (by rw [position]; rfl)]
      exact follows.parked t'
  | @decide t call done p created position decision decided =>
    refine follows.quiet (by rw [Engine.gateCalls, position]) rfl (parked_update s.fg ?_)
    rw [position, Decision.next]
    split <;> rfl
  | lookupFound position | lockPage position | partialInc position | partialPush position
  | fullInc position | fullEnter position | fullPush position | unlockMore position
  | unlockDone position | unlockRetry position | detach position =>
    exact follows.quiet (by rw [Engine.gateCalls, position]) rfl
      (parked_update s.fg (by rw [position]; rfl))
  | callDirect position | callScrap position | oomPage position | oomDirect position
  | pwrite position =>
    exact follows.quiet rfl rfl (parked_update s.fg (by rw [position]; rfl))

/-- Pages are freed one after the other. -/
theorem frees (follows : Follows cfg s g) (count : Nat) (enough : count ≤ s.watermark.live)
    (fg : s'.fg = s.fg)
    (watermark : s'.watermark = { s.watermark with live := s.watermark.live - count }) :
    Drives cfg g (List.replicate count .noteFree) s' := by
  induction count generalizing s g with
  | zero =>
    refine follows.quiet rfl ?_ fun t => by rw [fg]
    rw [watermark]
    rfl
  | succ count inductionHypothesis =>
    have level := follows.watermark
    have some : 0 < g.watermark.live := by rw [level]; omega
    have rest : ∀ {g' : Gate (Fin n)},
        g'.watermark = { g.watermark with live := g.watermark.live - 1 } →
        (∀ t, g'.waiter t ≠ .outside ↔ g.waiter t ≠ .outside) → Hysteresis cfg g' →
        NoLostWakeup cfg g' → Drives cfg g' (List.replicate count .noteFree) s' := by
      intro g' lower same hysteresis awake
      refine inductionHypothesis
        (s := { s with watermark := { s.watermark with live := s.watermark.live - 1 } })
        ⟨by rw [lower, level], fun t => (follows.parked t).trans (same t).symm, hysteresis, awake⟩
        ?_ fg ?_
      · exact Nat.le_sub_one_of_lt enough
      · rw [watermark]
        simp only [Nat.sub_sub, Nat.add_comm]
    rw [List.replicate_succ]
    by_cases low : g.watermark.armed = true ∧ g.watermark.live - 1 ≤ g.watermark.low
    · exact follows.call (.release some low.1 low.2) trivial
        (rest rfl fun t => Waiter.wake_outside _)
    · refine follows.call (.noteFree some fun armed => ?_) trivial (rest rfl fun t => Iff.rfl)
      exact Nat.lt_of_not_le fun below => low ⟨armed, below⟩

theorem step (follows : Follows cfg s g) (reached : Reachable cfg file scratch s)
    (fits : s'.watermark.live < 2 ^ 32) (move : Move cfg s label s') :
    Drives cfg g (s.gateCalls label) s' := by
  have sound := sound_of_run reached
  have level : Level 0 s := (level_of_run reached).2
  rw [Level] at level
  cases move with
  | fg move => exact follows.fg (ceiling_of_reachable reached) fits move
  | stage1 move => cases move <;> exact follows.quiet rfl rfl fun _ => rfl
  | stage2 move =>
    cases move with
    | @free p batch position =>
      have counted := (Level.alive_free sound.owned position).length_eq
      simp only [List.length_append, List.length_singleton] at counted
      rw [Engine.gateCalls, position]
      exact follows.frees 1 (by omega) rfl rfl
    | pwritev => exact follows.quiet rfl rfl fun _ => rfl
    | pop position | exit position | poppedBusy position | poppedGo position | busyPush position
    | wake position | collectTake position | collectStop position | checkReady position
    | checkNotReady position | pushBack position | detachDone position | unlinkSkip position
    | unlink position | tag position | writeStart position | written position | latch position
    | freeDone position | leave position | decrement position =>
      exact follows.quiet (by rw [Engine.gateCalls, position]) rfl fun _ => rfl
  | closer move =>
    cases move with
    | disarm position =>
      rw [Engine.gateCalls, position]
      refine follows.single .disarm trivial ?_ fun t => ?_
      · simp [Gate.disarm, Gate.broadcast, follows.watermark]
      · exact (follows.parked t).trans (Waiter.wake_outside _).symm
    | destroy position =>
      have subset : s.resident ⊆ s.alive := fun p member => by
        obtain ⟨b, linked⟩ := (mem_resident sound.owned).mp member
        exact mem_alive.mpr (sound.owned.indexed b p linked).1
      have counted := ((nodup_resident sound.owned).subperm subset).length_le
      rw [Engine.gateCalls, position]
      exact follows.frees s.resident.length (by omega) rfl rfl
    | close | closeFd => exact follows.quiet rfl rfl fun _ => rfl
    | firstDrain position | sweepBucket position | sweepDone position | sweepFault position
    | sweepLock position | partialInc position | partialPush position | fullInc position
    | fullEnter position | fullPush position | sweepUnlock position | sweepNextFault position
    | sweepNext position | secondDrain position | stopping position | shutdown1 position
    | join1 position | shutdown2 position | join2 position | lastCheck position =>
      exact follows.quiet (by rw [Engine.gateCalls, position]) rfl fun _ => rfl

end Follows

/-- Along every run of the engine, the gate that is armed by `nox_open` and then gets exactly the
calls that the engine makes, in their order, takes every one of them, and after them it has the
engine's level, marks and count of stalls, and the same threads asleep; of these, whoever has no
wakeup pending sleeps at an armed gate above the low mark. -/
theorem engine_drives_gate (small : cfg.high + n < 2 ^ 32) {calls : List (GateLabel (Fin n))}
    (run : Run (recording (Engine.step cfg) Engine.noteGateCalls) (fun _ _ => True)
      (Engine.init n cfg file scratch, [.arm]) (s, calls)) :
    ∃ g, calls.foldlM (Gate.step cfg) Gate.init = some g ∧ Follows cfg s g := by
  have all : Reachable cfg file scratch (s, calls).1 ∧
      Drives cfg Gate.init (s, calls).2 (s, calls).1 := by
    apply run.invariant fun both => Reachable cfg file scratch both.1 ∧
      Drives cfg Gate.init both.2 both.1
    · refine ⟨.refl, Gate.init.arm cfg, rfl, rfl, ?_, ?_, ?_⟩
      · simp [Engine.init, Fg.isParked, Gate.arm, Gate.init]
      · exact (Hysteresis.init cfg).step .arm
      · simp [NoLostWakeup, Gate.arm, Gate.init]
    · rintro ⟨middle, before⟩ ⟨last, after⟩ label ⟨reached, g, taken, follows⟩ - stepped
      obtain ⟨moved, rfl⟩ := recording_eq_some stepped
      have next : Reachable cfg file scratch last := .tail reached trivial moved
      obtain ⟨g', further, after⟩ :=
        follows.step reached (counters_fit small next).1 (move_of_step moved)
      refine ⟨next, g', ?_, after⟩
      rw [Engine.noteGateCalls, List.foldlM_append, taken]
      exact further
  exact all.2

/-- Behind a gate for one page the writer parks with its second call; the free of its first page
wakes it. -/
theorem engine_drives_gate_of_parked :
    ∃ (s : Engine 1) (g : Gate (Fin 1)),
      Run (recording (Engine.step .narrow) Engine.noteGateCalls) (fun _ _ => True)
        (Engine.init 1 .narrow emptyFile fun _ => 0, [.arm])
        (s, [.arm, .wait 0, .noteAlloc, .wait 0, .noteFree, .resume 0]) ∧
      [.arm, .wait 0, .noteAlloc, .wait 0, .noteFree, .resume 0].foldlM (Gate.step .narrow)
        Gate.init = some g ∧
      Follows .narrow s g ∧ (s.fg 0).isParked = false ∧ g.watermark.blockedCount = 1 := by
  have driven : ∃ both, Run (recording (Engine.step .narrow) Engine.noteGateCalls)
      (fun _ _ => True) (Engine.init 1 .narrow emptyFile fun _ => 0, [.arm]) both ∧
      both.2 = [.arm, .wait 0, .noteAlloc, .wait 0, .noteFree, .resume 0] ∧
      (both.1.fg 0).isParked = false ∧ both.1.watermark.blockedCount = 1 :=
    Run.exists_of_follow _ (fun _ _ => true)
      (tinyWrite ++ tinyPark ++ tinyFill ++ tinyWriteback ++ tinyFree ++ [.fg 0])
      (fun _ _ _ => trivial)
      (fun both : Engine 1 × List (GateLabel (Fin 1)) =>
        both.2 = [.arm, .wait 0, .noteAlloc, .wait 0, .noteFree, .resume 0] ∧
        (both.1.fg 0).isParked = false ∧ both.1.watermark.blockedCount = 1) (by decide +kernel)
  obtain ⟨⟨s, calls⟩, run, rfl, passed, blocked⟩ := driven
  obtain ⟨g, taken, follows⟩ := engine_drives_gate (by decide) run
  exact ⟨s, g, run, taken, follows, passed, by rw [follows.watermark, blocked]⟩

end NoxDB

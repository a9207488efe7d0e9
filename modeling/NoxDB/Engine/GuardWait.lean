import NoxDB.Engine.Concurrent

/-! # The writeback guard

`wb` counts, slot by slot, the pages between `wb_guard_enter` and `wb_guard_leave`.  Once
Stage-1 is past `wb_guard_wait` with a page, no page of its base is in the guard: none was
when it passed, and a page that enters the guard later would have overtaken it.
-/

namespace NoxDB

open Function (update)
open Library.Runs

variable {n : Nat} {cfg : Config} {file : File} {scratch : Nat → UInt8} {s s' : Engine n}
  {label : Label n}

/-- No page of the base of the page that Stage-1 took past `wb_guard_wait` is in the guard. -/
def Undisturbed (s : Engine n) : Prop :=
  ∀ p ∈ s.s1.admitted, ∀ q ∈ s.guarded, (s.pages q).base ≠ (s.pages p).base

/-- A page enters the guard from the hands of a thread that pushes it to Queue-2. -/
theorem guarded_cases (move : Move cfg s label s') {q : PageId}
    (member : q ∈ s'.guarded) :
    q ∈ s.guarded ∨ (∃ o, s.custody.role o = .pushing q .fullEnter) ∨ q ∈ s'.s1.entered := by
  have kept : s'.guarded.Perm s.guarded →
      q ∈ s.guarded ∨ (∃ o, s.custody.role o = .pushing q .fullEnter) ∨ q ∈ s'.s1.entered :=
    fun same => .inl (same.mem_iff.mp member)
  -- The only way in is the count that comes before a push to Queue-2.
  have gained : ∀ {p}, s'.guarded.Perm (p :: s.guarded) →
      (∃ o, s.custody.role o = .pushing p .fullEnter) →
      q ∈ s.guarded ∨ (∃ o, s.custody.role o = .pushing q .fullEnter) ∨ q ∈ s'.s1.entered := by
    intro p more pushes
    rcases List.mem_cons.mp (more.mem_iff.mp member) with rfl | old
    · exact .inr (.inl pushes)
    · exact .inl old
  cases move with
  | fg move =>
    cases move with
    | callZero => exact .inl member
    | callDirect position | callScrap position | gatePass position | gatePark position
    | parkedPass position | lookupFound position | alloc position | oomPage position
    | oomDirect position | lockPage position | unlockMore position | unlockDone position
    | unlockRetry position | detach position | pwrite position | partialInc position
    | partialPush position | fullInc position =>
      exact kept (.of_eq (Guard.guarded_fg_same position (by rfl)))
    | @decide t call done p created position decision decided =>
      refine kept (.of_eq (Guard.guarded_fg_same position ?_))
      have way := Decided.of_eq decided
      cases way <;> rfl
    | @fullEnter t call done p after position =>
      refine gained ?_ ⟨.fg t, role_at position⟩
      exact ((carriers_fg_gain Role.entered (.scrap call done (.enqueue p .fullPush after)) position
        rfl rfl).append_left _).trans List.perm_middle
    | @fullPush t call done p after position =>
      exact kept (Guard.guarded_push s.q2 (carriers_fg_loss Role.entered
        (.scrap call done (.unlock p after)) position rfl rfl) _ _)
  | closer move =>
    cases move with
    | close position | disarm position | firstDrain position | sweepBucket position
    | sweepDone position | sweepFault position | partialInc position | partialPush position
    | fullInc position | sweepUnlock position | sweepNextFault position | sweepNext position
    | secondDrain position | stopping position | shutdown1 position | join1 position
    | shutdown2 position | join2 position | lastCheck position | destroy position
    | closeFd position =>
      exact kept (.of_eq (Guard.guarded_closer_same position (by rfl)))
    | @sweepLock err bucket p position alive free page enqueue chosen =>
      refine kept (.of_eq (Guard.guarded_closer_same position ?_))
      rw [show enqueue = (Engine.enqueueOne (s.pages p)).2 from congrArg Prod.snd chosen]
      simp only [Engine.enqueueOne, enqueueFull, enqueuePartial]
      split <;> split <;> rfl
    | @fullEnter err bucket p position =>
      refine gained ?_ ⟨.closer, closer_role_at position⟩
      exact ((carriers_closer_gain Role.entered (.sweepEnqueue err bucket p .fullPush) position
        rfl rfl).append_left _).trans List.perm_middle
    | @fullPush err bucket p position =>
      exact kept (Guard.guarded_push s.q2 (carriers_closer_loss Role.entered
        (.sweepUnlock err bucket p) position rfl rfl) _ _)
  | stage1 move =>
    cases move with
    -- Stage-1 enters the guard with a page of its own, which is the third alternative.
    | forwardEnter position | fillEnter position | forwardPush position | fillPush position =>
      simp only [Engine.guarded, position, Stage1.entered, List.mem_append] at member ⊢
      grind
    | pop position | exit position | inspectFull position | inspectBusy position
    | inspectHoles position | busyPush position | wake position | guardPass position
    | readStart position | readEnd position | readFailed position | fill position | drop position
    | dropDec position | preadOk position | preadFail position =>
      refine kept (.of_eq ?_)
      simp only [Engine.guarded, position, Stage1.entered]
  | stage2 move =>
    left
    cases move with
    | pop position queue | collectTake position _ queue =>
      simpa [Engine.guarded, position, queue, Stage2.leaver, Stage2.pages, Stage2.tagged,
        Stage2.unlinked, Stage2.kept] using member
    | pwritev position fits after outcome =>
      cases after <;> simpa [Engine.guarded, position, afterPwritev, Stage2.leaver, Stage2.pages,
        Stage2.tagged, Stage2.unlinked, Stage2.kept] using member
    | exit position | poppedBusy position | poppedGo position | collectStop position
    | checkReady position | checkNotReady position | detachDone position | unlinkSkip position
    | unlink position | tag position | writeStart position | written position | latch position
    | freeDone position | free position | leave position | decrement position | busyPush position
    | wake position | pushBack position =>
      simp only [Engine.guarded, position, Stage2.leaver, Stage2.pages, Stage2.tagged,
        Stage2.unlinked, Stage2.kept, List.mem_append] at member ⊢
      grind

theorem Undisturbed.step (undisturbed : Undisturbed s) (scheduled : Scheduled cfg s)
    (move : Move cfg s label s') : Undisturbed s' := by
  intro p admitted q member same
  have sound := scheduled.sound
  have bases := base_stable (sound.refines move)
  have hand : p ∈ s.s1.pages ∧ (p ∈ s.s1.admitted ∨ s.wb (wbSlot (s.pages p).base) = 0) := by
    have elsewhere : s'.s1 = s.s1 → p ∈ s.s1.admitted := fun same => same ▸ admitted
    have inHand : p ∈ s.s1.admitted → p ∈ s.s1.pages := by
      intro before
      cases position : s.s1 with
      | finish r ok => cases ok <;> simp_all [Stage1.admitted, Stage1.pages]
      | _ => simp_all [Stage1.admitted, Stage1.pages]
    have stays : p ∈ s.s1.admitted →
        p ∈ s.s1.pages ∧ (p ∈ s.s1.admitted ∨ s.wb (wbSlot (s.pages p).base) = 0) :=
      fun before => ⟨inHand before, .inl before⟩
    cases move with
    | fg move => exact stays (elsewhere (by cases move <;> rfl))
    | stage2 move => exact stays (elsewhere (by cases move <;> rfl))
    | closer move => exact stays (elsewhere (by cases move <;> rfl))
    | stage1 move =>
      cases move with
      | @guardPass r holes position quiet =>
        obtain rfl : r = p := by simpa [Stage1.admitted] using admitted
        exact ⟨by rw [position]; exact List.mem_singleton_self _, .inr quiet⟩
      | readStart position | readEnd position | preadOk position =>
        exact stays (by rw [position]; exact admitted)
      | _ => simp [Stage1.admitted] at admitted
  have late : p ∈ s.custody.late := List.mem_append_left _ hand.1
  have current := (sound.owned.live p (Custody.mem_pipe_of_waiting (List.mem_append_right _ late))).1
  rw [bases p current] at same
  rcases guarded_cases move member with before | ⟨o, pushes⟩ | entered
  · rw [bases q (sound.guard.lt_created sound.owned q before)] at same
    rcases hand.2 with earlier | quiet
    · exact undisturbed p earlier q before same
    · have counted := sound.guard.tally.pos_of_mem before
      rw [same] at counted
      omega
  · -- A page that goes to Queue-2 now leaves no page of its base behind.
    have old := (sound.owned.outside_of_carried (o := o) (by rw [pushes]; rfl)).1.1
    rw [bases q old] at same
    exact scheduled.orderly.straight o q .fullEnter pushes rfl p late same.symm
  · cases position : s'.s1 <;> simp_all [Stage1.admitted, Stage1.entered]

/-! ## Each page is counted once -/

/-- The page that Stage-2 has still to take out of the guard is freed. -/
def Departed (s : Engine n) : Prop := ∀ p ∈ s.s2.leaver, s.freed p = true

theorem Departed.step (departed : Departed s) (sound : Sound cfg s) (move : Move cfg s label s') :
    Departed s' := by
  intro p leaver
  have elsewhere : s'.s2 = s.s2 → s'.freed p = true := fun same =>
    freed_mono sound move (departed p (same ▸ leaver))
  cases move with
  | fg move => exact elsewhere (by cases move <;> rfl)
  | stage1 move => exact elsewhere (by cases move <;> rfl)
  | closer move => exact elsewhere (by cases move <;> rfl)
  | stage2 move =>
    cases move with
    | @free q batch position =>
      obtain rfl := List.mem_singleton.mp leaver
      exact Function.update_self _ _ _
    | pwritev _ _ after => cases after <;> simp [afterPwritev, Stage2.leaver] at leaver
    | _ => simp [Stage2.leaver] at leaver

theorem departed_of_reachable (reached : Reachable cfg file scratch s) : Departed s := by
  apply reached.invariant_along (Sound cfg) Departed sound_of_run
  · simp [Departed, Engine.init, Stage2.leaver]
  · exact fun sound departed _ stepped => departed.step sound (move_of_step stepped)

theorem Role.carried_of_entered {r : Role} {p : PageId} (entered : r.entered = some p) :
    r.carried = some p := by
  unfold Role.entered at entered
  split at entered
  · exact entered
  · simp at entered

/-- A page that somebody took into the guard is alive until Stage-2 frees it. -/
theorem alive_of_entered (sound : Sound cfg s) {p : PageId}
    (member : p ∈ s.s2.pages ++ (s.q2 ++ (s.s1.entered ++
      carriers Role.entered (roleOf s.fg s.closer)))) : s.custody.Alive p := by
  have owned := sound.owned
  have entered : s.s1.entered ⊆ s.s1.pages := by
    cases s.s1 <;> simp [Stage1.entered, Stage1.pages]
  have piped : ∀ q ∈ s.s2.pages ++ s.q2 ++ s.s1.pages, s.custody.Alive q := by
    refine fun q queued => owned.live q ?_
    simp only [Custody.pipe, Custody.waiting, Engine.custody, Stage2.pages, List.mem_append]
      at queued ⊢
    grind
  rcases List.mem_append.mp member with writing | member
  · exact piped p (by simp [writing])
  · rcases List.mem_append.mp member with queued | member
    · exact piped p (by simp [queued])
    · rcases List.mem_append.mp member with filling | carrier
      · exact piped p (List.mem_append_right _ (entered filling))
      · obtain ⟨o, enters⟩ := mem_carriers.mp carrier
        exact (owned.outside_of_carried (o := o) (Role.carried_of_entered enters)).1

theorem guarded_nodup (sound : Sound cfg s) (departed : Departed s) : s.guarded.Nodup := by
  have owned := sound.owned
  have entered : s.s1.entered.Sublist s.s1.pages := by
    cases s.s1 <;> simp [Stage1.entered, Stage1.pages]
  have inner : (s.s2.pages ++ s.q2 ++ s.s1.entered).Sublist s.custody.pipe := by
    have whole : s.custody.pipe = (s.s2.pages ++ s.q2) ++ (s.s1.pages ++ s.q1) := by
      simp [Custody.pipe, Custody.waiting, Engine.custody, Stage2.pages]
    rw [whole]
    exact (List.Sublist.refl _).append (entered.trans (List.sublist_append_left _ _))
  have carried : ∀ p ∈ carriers Role.entered (roleOf s.fg s.closer), p ∉ s.custody.pipe := by
    intro p member
    obtain ⟨o, enters⟩ := mem_carriers.mp member
    exact (owned.outside_of_carried (o := o) (Role.carried_of_entered enters)).2
  have outer : (carriers Role.entered (roleOf s.fg s.closer)).Nodup := by
    refine List.Nodup.filterMap (fun o o' p first second => ?_) (nodup_owners n)
    exact owned.same_holder (Role.held_of_carried (Role.carried_of_entered first))
      (Role.held_of_carried (Role.carried_of_entered second))
  have leaving : s.s2.leaver.Nodup := by cases s.s2 <;> simp [Stage2.leaver]
  rw [Engine.guarded]
  simp only [List.append_assoc] at inner ⊢
  refine List.nodup_append.mpr ⟨leaving, ?_, ?_⟩
  · rw [← List.append_assoc, ← List.append_assoc]
    refine List.nodup_append.mpr ⟨owned.nodup.sublist (by simpa using inner), outer, ?_⟩
    rintro p queued q carrier rfl
    exact carried p carrier (inner.subset (by simpa using queued))
  · rintro p leaver q member rfl
    have freed := departed p leaver
    have alive := alive_of_entered sound member
    exact absurd (freed.symm.trans alive.2) (by simp)

/-! ## Along a run -/

/-- A run without reuse of addresses is one in which no stale address is reused. -/
theorem cooperative_of_fresh
    (run : Run (Engine.step cfg)
      (fun s label => (FreshAddress s label ∧ NonOverlap s label) ∧ label.allocates = true)
      (Engine.init n cfg file scratch) s) :
    Run (Engine.step cfg) Cooperative (Engine.init n cfg file scratch) s := by
  have safe := run.strengthen (Sound cfg) SafeAddress (.init cfg file scratch)
    (fun sound _ stepped => sound.move (move_of_step stepped))
    (fun sound met _ => safe_of_fresh sound met.1.1)
  exact safe.weaken fun s label met => ⟨met.2, met.1.1.2, met.1.2⟩

/-- `wb` counts the pages between `wb_guard_enter` and `wb_guard_leave`, each of them once: it is
positive for every page in Queue-2 or in Stage-2's hands and wherever Stage-2 leaves the guard.
In a run whose concurrent calls share no byte, without reuse of addresses, failed allocations
and latched errors, while Stage-1 is past `wb_guard_wait` with a page, no page of its base is in
the guard and every older page of its base has been written. -/
theorem writeback_guard (reached : Reachable cfg file scratch s) :
    (s.guarded.Nodup ∧ ∀ k, s.wb k = s.guarded.countP fun p => wbSlot (s.pages p).base = k) ∧
    (∀ p ∈ s.q2 ++ s.s2.pages, p ∈ s.guarded ∧ 0 < s.wb (wbSlot (s.pages p).base)) ∧
    (∀ p base batch, s.s2 = .leaving p base batch → 0 < s.wb (wbSlot base)) ∧
    (Run (Engine.step cfg)
        (fun s label => (FreshAddress s label ∧ NonOverlap s label) ∧ label.allocates = true)
        (Engine.init n cfg file scratch) s → s.ioErr = false →
      ∀ p ∈ s.s1.admitted, (∀ q ∈ s.guarded, (s.pages q).base ≠ (s.pages p).base) ∧
        ∀ q < p, (s.pages q).base = (s.pages p).base → Written s q) := by
  have sound := sound_of_run reached
  have positive : ∀ p ∈ s.guarded, 0 < s.wb (wbSlot (s.pages p).base) := fun p member =>
    sound.guard.tally.pos_of_mem member
  refine ⟨⟨guarded_nodup sound (departed_of_reachable reached), sound.guard.tally⟩, fun p member => ?_,
    fun p base batch position => ?_, fun run clean p admitted => ?_⟩
  · have guarded : p ∈ s.guarded := by
      simp only [Engine.guarded, List.mem_append] at member ⊢
      grind
    exact ⟨guarded, positive p guarded⟩
  · rw [(sound.guard.left p base batch position).1]
    exact positive p (by simp [Engine.guarded, position, Stage2.leaver])
  · have smooth := smooth_of_run (cooperative_of_fresh run) clean
    have both : Undisturbed s ∧ ∀ p ∈ s.s1.admitted, Oldest s p := by
      apply smooth.invariant_along (Steady cfg)
        (fun s => Undisturbed s ∧ ∀ p ∈ s.s1.admitted, Oldest s p)
        (steady_of_run fun _ _ met => met)
      · simp [Undisturbed, Engine.init, Stage1.admitted]
      · rintro middle last label steady ⟨undisturbed, oldest⟩ - stepped
        have move := move_of_step stepped
        exact ⟨undisturbed.step steady.scheduled move, admitted_step steady.scheduled move oldest⟩
    have recorded := (steady_of_run (fun _ _ met => met) smooth).recorded
    exact ⟨both.1 p admitted, fun q older same => recorded.freed q (both.2 p admitted q older same)⟩

/-- The second write to the zone of the small run, into a page of its own. -/
def tinyAgain : List (Label 1) :=
  [.call 0 tinyCall, .fg 0, .alloc 0 8 (fun _ => 1), .fg 0, .fg 0, .fg 0, .fg 0]

/-- In the small run Stage-1 comes past the guard with the second page of the zone when the
first one has been written. -/
theorem writeback_guard_of_second :
    ∃ s : Engine 1, Reachable .standard emptyFile (fun _ => 0) s ∧ s.s1.admitted = some 1 ∧
      (s.pages 0).base = (s.pages 1).base ∧ Written s 0 ∧
      ∀ q ∈ s.guarded, (s.pages q).base ≠ (s.pages 1).base := by
  have reached : ∃ s : Engine 1, Run (Engine.step .standard)
      (fun s label => (FreshAddress s label ∧ NonOverlap s label) ∧ label.allocates = true)
      (Engine.init 1 .standard emptyFile fun _ => 0) s ∧
      (s.ioErr = false ∧ s.s1.admitted = some 1 ∧ (s.pages 0).base = (s.pages 1).base) := by
    refine exists_run .standard emptyFile (fun _ => 0)
      (fun s label => decide (FreshAddress s label) && Alone s label && label.allocates)
      (fun s label passed => ?_)
      (tinyWrite ++ tinyFill ++ tinyWriteback ++ tinyFree ++ tinyAgain ++
        [.stage1, .stage1, .stage1]) _ ?_
    · simp only [Bool.and_eq_true, decide_eq_true_eq] at passed
      exact ⟨⟨passed.1.1, nonOverlap_of_alone passed.1.2⟩, passed.2⟩
    · decide +kernel
  obtain ⟨s, run, clean, admitted, bases⟩ := reached
  have reached : Reachable .standard emptyFile (fun _ => 0) s := run.weaken fun _ _ _ => trivial
  obtain ⟨-, -, -, waits⟩ := writeback_guard reached
  obtain ⟨alone, older⟩ := waits run clean 1 admitted
  exact ⟨s, reached, admitted, bases, older 0 (by decide) bases, alone⟩

end NoxDB

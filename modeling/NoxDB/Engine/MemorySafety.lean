import NoxDB.Engine.Sweep

/-! # Memory safety

Which pages a step dereferences, and on which of them it looks at what the page lock protects: the
header, the data zone and `in_queue`.  (`detached` belongs to Stage-2, which uses it without the
lock.)  A page is freed by Stage-2 while other threads may still have pointers to it, so that every
page dereferenced is alive is a fact about whole runs.  It fails in one place only, the walk of
`nox_close` over the index.
-/

namespace NoxDB

variable {n : Nat}

namespace Engine

/-- The page whose `qnext` a push at this position writes. -/
def pushTouches (s : Engine n) : Enqueue → List PageId
  | .partialPush => s.q1.getLast?.toList
  | .fullPush => s.q2.getLast?.toList
  | .partialInc | .fullInc | .fullEnter => []

/-- The pages that `nox_write` dereferences.  A lookup and a detach walk the chain; a detach
compares its bare pointer and follows it only if it is in the chain. -/
def touchedFg (s : Engine n) : Fg → List PageId
  | .scrap call done .lookup | .scrap call done (.detach _) => s.buckets (piHash (call.base done))
  | .scrap _ _ (.enqueue p e _) => p :: s.pushTouches e
  | .scrap _ _ (.lockPage p) | .scrap _ _ (.held p _) | .scrap _ _ (.unlock p _) => [p]
  | _ => []

/-- The pages that `stage1_loop` dereferences.  During the read it uses its copy of the base. -/
def touchedStage1 (s : Engine n) : Stage1 → List PageId
  | .idle => s.q1.head?.toList
  | .popped p | .forwardEnter p | .finish p _ | .fillEnter p => [p]
  | .forwardPush p | .fillPush p => p :: s.q2.getLast?.toList
  | .busyPush p => p :: s.q1.getLast?.toList
  | _ => []

/-- The pages that `stage2_loop` dereferences.  After the free it uses its copy of the base. -/
def touchedStage2 (s : Engine n) : Stage2 → List PageId
  | .idle => s.q2.head?.toList
  | .popped p | .tagging _ p _ | .freeing (p :: _) => [p]
  | .busyPush p | .pushBack _ p => p :: s.q2.getLast?.toList
  | .collect batch => batch ++ s.q2.head?.toList
  | .check _ next => [next]
  | .detaching _ (p :: _) => p :: s.buckets (piHash (s.pages p).base)
  | .writeStart batch | .writing batch _ => batch
  | _ => []

/-- The pages that `nox_close` dereferences. -/
def touchedCloser (s : Engine n) : Closer → List PageId
  | .sweep _ _ cur => cur.toList
  | .sweepEnqueue _ _ p e => p :: s.pushTouches e
  | .sweepUnlock _ _ p | .sweepNext _ _ p => [p]
  | .destroy _ => s.resident
  | _ => []

/-- The pages a step dereferences. -/
def touched (s : Engine n) : Label n → List PageId
  | .fg t | .alloc t _ _ | .oom t => s.touchedFg (s.fg t)
  | .stage1 | .pread _ => s.touchedStage1 s.s1
  | .stage2 | .pwritev _ => s.touchedStage2 s.s2
  | .closer => s.touchedCloser s.closer
  | .call _ _ | .pwrite _ _ | .close | .closeFd _ => []

/-- The pages of which a step reads or writes the header, the data zone or `in_queue`, or which
it frees together with their lock. -/
def accessed (s : Engine n) : Label n → List PageId
  | .fg t =>
    match s.fg t with
    | .scrap _ _ (.lockPage p) | .scrap _ _ (.held p _) | .scrap _ _ (.enqueue p _ _)
    | .scrap _ _ (.unlock p _) => [p]
    | _ => []
  | .stage1 =>
    match s.s1 with
    | .popped p | .finish p _ => [p]
    | _ => []
  | .stage2 =>
    match s.s2 with
    | .check _ p | .tagging _ p _ | .freeing (p :: _) => [p]
    | _ => []
  | .pwritev _ => s.s2.tagged
  | .closer =>
    match s.closer with
    | .sweep _ _ cur => cur.toList
    | .sweepEnqueue _ _ p _ | .sweepUnlock _ _ p => [p]
    | .destroy _ => s.resident
    | _ => []
  | _ => []

end Engine

/-- The name under which the thread of a step holds page locks across steps; the stages hold
none. -/
def Label.owner : Label n → Option (Owner n)
  | .fg t => some (.fg t)
  | .closer => some .closer
  | _ => none

variable {cfg : Config} {file : File} {scratch : Nat → UInt8} {s s' : Engine n} {label : Label n}
  {p : PageId}

/-! ## Pages that are alive -/

theorem alive_of_queued (sound : Sound cfg s)
    (queued : p ∈ s.q1 ∨ p ∈ s.q2 ∨ p ∈ s.s1.pages ∨ p ∈ s.s2.pages) : s.custody.Alive p := by
  refine sound.owned.live p ?_
  simp only [Stage2.pages, List.mem_append] at queued
  simp only [Custody.pipe, Custody.waiting, Engine.custody, List.mem_append]
  tauto

theorem alive_of_linked (sound : Sound cfg s) {b : Nat} (linked : p ∈ s.buckets b) :
    s.custody.Alive p := (sound.owned.indexed b p linked).1

theorem alive_of_locker (sound : Sound cfg s) {o : Owner n}
    (held : (s.custody.role o).held = some p) : s.custody.Alive p :=
  (sound.owned.alive_of_held held).1

/-- The ends of the two queues. -/
theorem alive_of_last (sound : Sound cfg s)
    (last : p ∈ s.q1.getLast?.toList ∨ p ∈ s.q2.getLast?.toList) : s.custody.Alive p := by
  simp only [Option.mem_toList] at last
  rcases last with first | second
  · exact alive_of_queued sound (.inl (List.mem_of_getLast? first))
  · exact alive_of_queued sound (.inr (.inl (List.mem_of_getLast? second)))

theorem alive_of_head (sound : Sound cfg s)
    (head : p ∈ s.q1.head?.toList ∨ p ∈ s.q2.head?.toList) : s.custody.Alive p := by
  simp only [Option.mem_toList] at head
  rcases head with first | second
  · exact alive_of_queued sound (.inl (List.mem_of_head? first))
  · exact alive_of_queued sound (.inr (.inl (List.mem_of_head? second)))

theorem alive_of_pushTouches (sound : Sound cfg s) {e : Enqueue} (member : p ∈ s.pushTouches e) :
    s.custody.Alive p := by
  cases e with
  | partialPush => exact alive_of_last sound (.inl member)
  | fullPush => exact alive_of_last sound (.inr member)
  | partialInc | fullInc | fullEnter => simp [Engine.pushTouches] at member

theorem alive_of_touchedFg (sound : Sound cfg s) {t : Fin n}
    (member : p ∈ s.touchedFg (s.fg t)) : s.custody.Alive p := by
  cases position : s.fg t with
  | idle | direct => simp [position, Engine.touchedFg] at member
  | scrap call done pc =>
    have role : s.custody.role (.fg t) = pc.role (call.base done) := role_at position
    rw [position] at member
    cases pc with
    | gate | parked => simp [Engine.touchedFg] at member
    | lookup | detach => exact alive_of_linked sound member
    | lockPage q =>
      obtain rfl : p = q := by simpa [Engine.touchedFg] using member
      have rights := sound.owned.rights (.fg t)
      rw [role] at rights
      exact alive_of_linked sound rights.1
    | held q created | unlock q after =>
      obtain rfl : p = q := by simpa [Engine.touchedFg] using member
      exact alive_of_locker sound (by rw [role]; rfl)
    | enqueue q e after =>
      rcases List.mem_cons.mp member with rfl | pushed
      · exact alive_of_locker sound (by rw [role]; rfl)
      · exact alive_of_pushTouches sound pushed

theorem alive_of_touchedStage1 (sound : Sound cfg s) (member : p ∈ s.touchedStage1 s.s1) :
    s.custody.Alive p := by
  have hand : p ∈ s.s1.pages → s.custody.Alive p := fun inHand =>
    alive_of_queued sound (.inr (.inr (.inl inHand)))
  cases position : s.s1 with
  | idle =>
    rw [position] at member
    exact alive_of_head sound (.inl member)
  | popped | forwardEnter | finish | fillEnter =>
    rw [position] at member hand
    exact hand member
  | forwardPush | fillPush =>
    rw [position] at member hand
    rcases List.mem_cons.mp member with rfl | last
    · exact hand List.mem_cons_self
    · exact alive_of_last sound (.inr last)
  | busyPush =>
    rw [position] at member hand
    rcases List.mem_cons.mp member with rfl | last
    · exact hand List.mem_cons_self
    · exact alive_of_last sound (.inl last)
  | waitNotBusy | guardWait | readStart | reading | readFailed | dropDec | exited =>
    simp [position, Engine.touchedStage1] at member

theorem alive_of_touchedStage2 (sound : Sound cfg s) (member : p ∈ s.touchedStage2 s.s2) :
    s.custody.Alive p := by
  have hands : p ∈ s.s2.pages → s.custody.Alive p := fun inHand =>
    alive_of_queued sound (.inr (.inr (.inr inHand)))
  simp only [Stage2.pages] at hands
  cases position : s.s2 with
  | idle =>
    rw [position] at member
    exact alive_of_head sound (.inr member)
  | popped | check | tagging | writeStart | writing =>
    rw [position] at member hands
    refine hands ?_
    simp only [Engine.touchedStage2] at member
    simp_all [Stage2.tagged, Stage2.unlinked, Stage2.kept]
  | collect batch =>
    rw [position] at member hands
    rcases List.mem_append.mp member with inBatch | head
    · exact hands inBatch
    · exact alive_of_head sound (.inr head)
  | busyPush | pushBack =>
    rw [position] at member hands
    rcases List.mem_cons.mp member with rfl | last
    · exact hands (by simp [Stage2.kept])
    · exact alive_of_last sound (.inr last)
  | detaching done todo =>
    rw [position] at member hands
    cases todo with
    | nil => simp [Engine.touchedStage2] at member
    | cons q todo =>
      rcases List.mem_cons.mp member with rfl | linked
      · exact hands (by simp [Stage2.kept])
      · exact alive_of_linked sound linked
  | freeing batch =>
    rw [position] at member hands
    cases batch with
    | nil => simp [Engine.touchedStage2] at member
    | cons q batch =>
      obtain rfl : p = q := by simpa [Engine.touchedStage2] using member
      exact hands (by simp [Stage2.tagged])
  | waitNotBusy | written | latch | leaving | decrement | exited =>
    simp [position, Engine.touchedStage2] at member

/-- What `nox_close` follows outside its walk. -/
theorem alive_of_closer (sound : Sound cfg s) (member : p ∈ s.touchedCloser s.closer)
    (still : ∀ err b q, s.closer = .sweepNext err b q → s.freed q = false) :
    s.custody.Alive p := by
  cases position : s.closer with
  | sweep err b cur =>
    obtain rfl : cur = some p := by simpa [position, Engine.touchedCloser] using member
    exact alive_of_linked sound (sound.walk.current err b p position).1
  | sweepEnqueue err b q e =>
    rw [position] at member
    rcases List.mem_cons.mp member with rfl | pushed
    · refine alive_of_locker sound (o := .closer) ?_
      rw [show s.custody.role .closer = .pushing p e from closer_role_at position]
      rfl
    · exact alive_of_pushTouches sound pushed
  | sweepUnlock err b q =>
    obtain rfl : p = q := by simpa [position, Engine.touchedCloser] using member
    refine alive_of_locker sound (o := .closer) ?_
    rw [show s.custody.role .closer = .holds p false from closer_role_at position]
    rfl
  | sweepNext err b q =>
    obtain rfl : p = q := by simpa [position, Engine.touchedCloser] using member
    have current := (sound.walk.hashed b p (by rw [position]; rfl) (by rw [position]; rfl)).1
    exact ⟨current, still err b p position⟩
  | destroy err =>
    rw [position] at member
    obtain ⟨b, linked⟩ := (mem_resident sound.owned).mp member
    exact alive_of_linked sound linked
  | running | disarm | firstDrain | secondDrain | stopping | shutdown1 | join1 | shutdown2 | join2
  | lastCheck | closeFd | returned | fault => simp [position, Engine.touchedCloser] at member

/-- The walk of `nox_close` faults where it reads the link of a page that is gone. -/
theorem freed_of_fault (sound : Sound cfg s) (move : Move cfg s label s')
    (intact : s.closer ≠ .fault) (fault : s'.closer = .fault) :
    ∃ err b p, s.closer = .sweepNext err b p ∧ s.freed p = true := by
  cases move with
  | fg move => cases move <;> exact absurd fault intact
  | stage1 move => cases move <;> exact absurd fault intact
  | stage2 move => cases move <;> exact absurd fault intact
  | closer move =>
    cases move with
    | @sweepFault err bucket p position gone =>
      -- The page the walk has come to is in the index, so it is alive.
      have alive := alive_of_linked sound (sound.walk.current err bucket p position).1
      exact absurd (gone.symm.trans alive.2) (by decide)
    | @sweepNextFault err bucket p position gone => exact ⟨err, bucket, p, position, gone⟩
    | @sweepLock err bucket p position alive free page enqueue =>
      cases enqueue <;> simp [Engine.sweepAfter] at fault
    | _ => simp at fault

/-- What the walk reads without a fault is alive. -/
theorem still_of_move (move : CloserMove s label s') (unfaulted : s'.closer ≠ .fault) {err : Bool}
    {b : Nat} {q : PageId} (position : s.closer = .sweepNext err b q) (own : label = .closer) :
    s.freed q = false := by
  cases move with
  | sweepNext there alive =>
    rw [position] at there
    cases there
    exact alive
  | sweepNextFault => exact absurd rfl unfaulted
  | close | closeFd => cases own
  | disarm there | firstDrain there | sweepBucket there | sweepDone there | sweepFault there
  | sweepLock there | partialInc there | partialPush there | fullInc there | fullEnter there
  | fullPush there | sweepUnlock there | secondDrain there | stopping there | shutdown1 there
  | join1 there | shutdown2 there | join2 there | lastCheck there | destroy there =>
    simp [position] at there

theorem alive_of_touched (sound : Sound cfg s) (move : Move cfg s label s')
    (unfaulted : s'.closer ≠ .fault) (member : p ∈ s.touched label) : s.custody.Alive p := by
  cases label with
  | fg | alloc | oom => exact alive_of_touchedFg sound member
  | stage1 | pread => exact alive_of_touchedStage1 sound member
  | stage2 | pwritev => exact alive_of_touchedStage2 sound member
  | closer =>
    cases move with
    | fg move | stage1 move | stage2 move => cases move
    | closer move =>
      exact alive_of_closer sound member fun err b q position =>
        still_of_move move unfaulted position rfl
  | call | pwrite | close | closeFd => simp [Engine.touched] at member

/-! ## Pages that are accessed -/

/-- Nobody holds the lock of a page that Stage-2 has tagged. -/
theorem free_of_tagged (sound : Sound cfg s) (tagged : p ∈ s.s2.tagged) : s.lock p = none := by
  cases held : s.lock p with
  | none => rfl
  | some o =>
    have holds := (sound.owned.locked p o).mp held
    exact absurd tagged (sound.owned.alive_of_held holds).2

/-- The thread itself holds the lock. -/
theorem lock_of_role (sound : Sound cfg s) {o : Owner n}
    (held : (s.custody.role o).held = some p) : s.lock p = some o :=
  (sound.owned.locked p o).mpr held

theorem exclusive_fg (sound : Sound cfg s) (move : FgMove cfg s label s')
    (member : p ∈ s.accessed label) : s.lock p = none ∨ s.lock p = label.owner := by
  cases move with
  | lockPage position free =>
    obtain rfl : p = _ := List.mem_singleton.mp (by simpa only [Engine.accessed, position] using member)
    exact .inl free
  | @decide t call done q created position =>
    obtain rfl : p = q := by simpa [Engine.accessed, position] using member
    refine .inr (lock_of_role sound (o := .fg t) ?_)
    rw [show s.custody.role (.fg t) = .holds p created from role_at position]
    rfl
  | @partialInc t call done q after position | @partialPush t call done q after position
  | @fullInc t call done q after position | @fullEnter t call done q after position
  | @fullPush t call done q after position =>
    obtain rfl : p = q := by simpa [Engine.accessed, position] using member
    refine .inr (lock_of_role sound (o := .fg t) ?_)
    rw [show s.custody.role (.fg t) = .pushing p _ from role_at position]
    rfl
  | @unlockMore t call done q position | @unlockDone t call done q position
  | @unlockRetry t call done q position =>
    obtain rfl : p = q := by simpa [Engine.accessed, position] using member
    refine .inr (lock_of_role sound (o := .fg t) ?_)
    rw [show s.custody.role (.fg t) = .holds p false from role_at position]
    rfl
  | callZero | callDirect | callScrap | alloc | oomPage | oomDirect | pwrite =>
    simp [Engine.accessed] at member
  | gatePass position | gatePark position | parkedPass position | lookupFound position
  | detach position => simp [Engine.accessed, position] at member

theorem exclusive_stage1 (move : Stage1Move cfg s label s') (member : p ∈ s.accessed label) :
    s.lock p = none := by
  cases move with
  | inspectFull position free | inspectBusy position free | inspectHoles position free
  | fill position free | drop position free =>
    obtain rfl : p = _ := List.mem_singleton.mp (by simpa only [Engine.accessed, position] using member)
    exact free
  | preadOk | preadFail => simp [Engine.accessed] at member
  | pop position | exit position | forwardEnter position | forwardPush position | busyPush position
  | wake position | guardPass position | readStart position | readEnd position
  | readFailed position | dropDec position | fillEnter position | fillPush position =>
    simp [Engine.accessed, position] at member

theorem exclusive_stage2 (sound : Sound cfg s) (move : Stage2Move s label s')
    (member : p ∈ s.accessed label) : s.lock p = none := by
  cases move with
  | checkReady position free | checkNotReady position free | tag position free =>
    obtain rfl : p = _ := List.mem_singleton.mp (by simpa only [Engine.accessed, position] using member)
    exact free
  | @free q batch position =>
    obtain rfl : p = q := by simpa [Engine.accessed, position] using member
    exact free_of_tagged sound (by simp [position, Stage2.tagged])
  | pwritev => exact free_of_tagged sound member
  | pop position | exit position | poppedBusy position | poppedGo position | busyPush position
  | wake position | collectTake position | collectStop position | pushBack position
  | detachDone position | unlinkSkip position | unlink position | writeStart position
  | written position | latch position | freeDone position | leave position | decrement position =>
    simp [Engine.accessed, position] at member

theorem exclusive_closer (sound : Sound cfg s) (move : CloserMove s label s')
    (intact : s'.closer ≠ .fault) (member : p ∈ s.accessed label) :
    s.lock p = none ∨ s.lock p = label.owner := by
  cases move with
  | sweepLock position alive free =>
    obtain rfl : p = _ := by simpa [Engine.accessed, position, eq_comm] using member
    exact .inl free
  | @partialInc err bucket q position | @partialPush err bucket q position
  | @fullInc err bucket q position | @fullEnter err bucket q position
  | @fullPush err bucket q position =>
    obtain rfl : p = q := by simpa [Engine.accessed, position] using member
    refine .inr (lock_of_role sound (o := .closer) ?_)
    rw [show s.custody.role .closer = .pushing p _ from closer_role_at position]
    rfl
  | @sweepUnlock err bucket q position =>
    obtain rfl : p = q := by simpa [Engine.accessed, position] using member
    refine .inr (lock_of_role sound (o := .closer) ?_)
    rw [show s.custody.role .closer = .holds p false from closer_role_at position]
    rfl
  | destroy position =>
    have quiet : Quiet s := ⟨sound.phases.idle (by simp [position, Closer.phase]), by rw [position]; rfl⟩
    cases held : s.lock p with
    | none => exact .inl rfl
    | some o =>
      have holds := (sound.owned.locked p o).mp held
      simp [quiet.role o, Role.held] at holds
  | sweepFault | sweepNextFault => exact absurd rfl intact
  | close | closeFd => simp [Engine.accessed] at member
  | disarm position | firstDrain position | sweepBucket position | sweepDone position
  | sweepNext position | secondDrain position | stopping position | shutdown1 position
  | join1 position | shutdown2 position | join2 position | lastCheck position =>
    simp [Engine.accessed, position] at member

/-- In every reachable state, whatever the writers, the device and the allocator did, every page
that a step dereferences is alive, and a step looks at the header, the data zone or `in_queue` of a
page, or frees the page, only if its thread holds the lock of the page or nobody does.  The one
exception is the walk of `nox_close`, where it reads the link of a page that Stage-2 has freed. -/
theorem memory_safe (reached : Reachable cfg file scratch s)
    (stepped : s.step cfg label = some s') (intact : s.closer ≠ .fault) :
    (s'.closer ≠ .fault →
      (∀ p ∈ s.touched label, p < s.created ∧ s.freed p = false) ∧
      ∀ p ∈ s.accessed label, s.lock p = none ∨ s.lock p = label.owner) ∧
    (s'.closer = .fault → ∃ err b p, s.closer = .sweepNext err b p ∧ s.freed p = true) := by
  have sound := sound_of_run reached
  have move := move_of_step stepped
  refine ⟨fun unfaulted => ⟨fun p member => alive_of_touched sound move unfaulted member,
    fun p member => ?_⟩, freed_of_fault sound move intact⟩
  cases move with
  | fg move => exact exclusive_fg sound move member
  | stage1 move => exact .inl (exclusive_stage1 move member)
  | stage2 move => exact .inl (exclusive_stage2 sound move member)
  | closer move => exact exclusive_closer sound move unfaulted member

/-- The writeback of the small run reads the page without its lock, and nobody holds it. -/
theorem memory_safe_of_writeback :
    ∃ s s' : Engine 1, Reachable .standard emptyFile (fun _ => 0) s ∧
      s.step .standard (.pwritev (.ok zoneSize)) = some s' ∧
      s.touched (.pwritev (.ok zoneSize)) = [0] ∧ s.freed 0 = false ∧ s.lock 0 = none := by
  obtain ⟨s, reached, taken, touched, accessed, running⟩ :=
    exists_reachable .standard emptyFile (fun _ => 0)
      (tinyWrite ++ tinyFill ++ tinyWriteback.dropLast)
      (fun s : Engine 1 => (s.step .standard (.pwritev (.ok zoneSize))).isSome = true ∧
        s.touched (.pwritev (.ok zoneSize)) = [0] ∧ s.accessed (.pwritev (.ok zoneSize)) = [0] ∧
        s.closer = .running) (by decide +kernel)
  obtain ⟨s', stepped⟩ := Option.isSome_iff_exists.mp taken
  have unfaulted : s'.closer ≠ .fault := fun fault => by
    obtain ⟨err, b, p, position, -⟩ :=
      (memory_safe reached stepped (by simp [running])).2 fault
    simp [running] at position
  obtain ⟨alive, exclusive⟩ := (memory_safe reached stepped (by simp [running])).1 unfaulted
  refine ⟨s, s', reached, stepped, touched, (alive 0 (by simp [touched])).2, ?_⟩
  rcases exclusive 0 (by simp [accessed]) with free | mine
  · exact free
  · exact mine

end NoxDB

import NoxDB.Engine.Decision
import NoxDB.Engine.Ownership
import NoxDB.ScrapPage.Holes

/-! # Only full pages reach Stage-2

Every header is well formed, and every page that is in Queue-2, in Stage-2's hands or
on its way there is full and stays full.  So `stage2_collect` never finds a page that
is not ready.
-/

namespace NoxDB

open Function (update)

variable {n : Nat}

/-- The page Stage-1 found or made full and has not pushed yet. -/
def Stage1.entering : Stage1 → List PageId
  | .forwardEnter p | .forwardPush p | .fillEnter p | .fillPush p => [p]
  | _ => []

/-- Stage-2 gives a page back to Queue-2. -/
def Stage2.returning : Stage2 → Bool
  | .pushBack _ _ => true
  | _ => false

/-- The pages that will not pass through Stage-1 again. -/
def Engine.outgoing (s : Engine n) : List PageId := s.s2.pages ++ s.q2 ++ s.s1.entering

theorem outgoing_subset_pipe (s : Engine n) : ∀ {p}, p ∈ s.outgoing → p ∈ s.custody.pipe := by
  intro p member
  have entering : p ∈ s.s1.entering → p ∈ s.s1.pages := by
    cases s.s1 <;> simp [Stage1.entering, Stage1.pages]
  simp only [Engine.outgoing, Stage2.pages, List.mem_append] at member
  simp only [Custody.pipe, Custody.waiting, Engine.custody, List.mem_append]
  grind

structure Ready (cfg : Config) (s : Engine n) : Prop where
  progress : ∀ t call done pc, s.fg t = .scrap call done pc → done < call.size
  wellFormed : ∀ p, (s.pages p).WellFormed cfg.maxEntries
  filled : ∀ p ∈ s.outgoing, scrapPageIsFull (s.pages p) = true
  pushed : ∀ o p e, roleOf s.fg s.closer o = .pushing p e → e.isFull = true →
    scrapPageIsFull (s.pages p) = true
  settled : s.s2.returning = false

namespace Ready

variable {cfg : Config} {s s' : Engine n} {label : Label n}

theorem init (cfg : Config) (file : File) (scratch : Nat → UInt8) :
    Ready cfg (Engine.init n cfg file scratch) where
  progress := by simp [Engine.init]
  wellFormed := fun p => scrapPageAlloc_wellFormed _ _ _ _
  filled := by
    simp [Engine.init, Engine.outgoing, Stage2.pages, Stage2.tagged, Stage2.unlinked, Stage2.kept,
      Stage1.entering]
  pushed := fun o p e => by cases o <;> simp [Engine.init, Fg.role, Closer.role]
  settled := rfl

theorem progress_update (ready : Ready cfg s) {t : Fin n} {f : Fg}
    (mine : ∀ call done pc, f = .scrap call done pc → done < call.size) :
    ∀ other call done pc, update s.fg t f other = .scrap call done pc → done < call.size := by
  intro other call done pc position
  by_cases same : other = t
  · subst same
    exact mine call done pc (by simpa using position)
  · exact ready.progress other call done pc (by simpa [same] using position)

theorem pushed_update (ready : Ready cfg s) {t : Fin n} {f : Fg}
    (mine : ∀ p e, f.role = .pushing p e → e.isFull = true → scrapPageIsFull (s.pages p) = true) :
    ∀ o p e, roleOf (update s.fg t f) s.closer o = .pushing p e → e.isFull = true →
      scrapPageIsFull (s.pages p) = true := by
  intro o p e role straight
  rw [roleOf_update] at role
  by_cases same : o = .fg t
  · subst same
    exact mine p e (by simpa using role) straight
  · exact ready.pushed o p e (by simpa [same] using role) straight

/-- A foreground step that changes nothing but its own position. -/
theorem reposition (ready : Ready cfg s) {t : Fin n} {f : Fg}
    (progress : ∀ call done pc, f = .scrap call done pc → done < call.size)
    (pushed : ∀ p e, f.role = .pushing p e → e.isFull = true →
      scrapPageIsFull (s.pages p) = true) :
    Ready cfg { s with fg := update s.fg t f } :=
  { ready with
    progress := ready.progress_update progress
    pushed := ready.pushed_update pushed }

/-- A page changes in a way that keeps it well formed and full. -/
theorem repage (ready : Ready cfg s) {p : PageId} {page : ScrapPage Cell}
    (wellFormed : page.WellFormed cfg.maxEntries)
    (full : scrapPageIsFull (s.pages p) = true → scrapPageIsFull page = true) :
    Ready cfg { s with pages := update s.pages p page } := by
  have keeps : ∀ q, scrapPageIsFull (s.pages q) = true →
      scrapPageIsFull (update s.pages p page q) = true := by
    intro q before
    by_cases same : q = p
    · subst same; simpa using full before
    · simpa [same] using before
  refine { ready with
    wellFormed := fun q => ?_
    filled := fun q member => keeps q (ready.filled q member)
    pushed := fun o q e role straight => keeps q (ready.pushed o q e role straight) }
  by_cases same : q = p
  · subst same; simpa using wellFormed
  · simpa [same] using ready.wellFormed q

theorem decide (ready : Ready cfg s) {t : Fin n} {call : Call} {done : Nat} {p : PageId}
    {created : Bool} (position : s.fg t = .scrap call done (.held p created)) {decision : Decision}
    (way : Decided cfg (s.pages p) created (call.cells done) (call.intra done) (call.chunk done)
      decision) :
    Ready cfg
      { s with
        pages := update s.pages p decision.page
        fg := update s.fg t (.scrap call done (decision.next p)) } := by
  have more := ready.progress t call done _ position
  have positive := Call.chunk_pos more
  have room := call.intra_add_chunk_le done
  have repaged := ready.repage (way.wellFormed (ready.wellFormed p) positive room)
    (way.isFull (ready.wellFormed p) positive room)
  refine repaged.reposition (by rintro _ _ _ ⟨⟩; exact more) fun q e role straight => ?_
  simp only [Fg.role, Decision.next] at role
  cases pushes : decision.enqueue with
  | none => simp [pushes, ChunkPc.role] at role
  | some e' =>
    obtain ⟨rfl, rfl⟩ : p = q ∧ e' = e := by simpa [pushes, ChunkPc.role] using role
    simpa using way.isFull_of_pushes pushes straight

theorem alloc (ready : Ready cfg s) (owned : s.custody.Ownership) {t : Fin n} {call : Call}
    {done : Nat} (position : s.fg t = .scrap call done .lookup) (zone : Nat → UInt8) :
    Ready cfg
      { s with
        pages := update s.pages s.created
          (scrapPageAlloc (call.base done) 0 fun x => ⟨zone x, .uninit⟩)
        fg := update s.fg t (.scrap call done (.held s.created true)) } := by
  have more := ready.progress t call done _ position
  have moved : Ready cfg { s with fg := update s.fg t (.scrap call done (.held s.created true)) } :=
    ready.reposition (by rintro _ _ _ ⟨⟩; exact more) (by simp [Fg.role, ChunkPc.role])
  refine { moved with
    wellFormed := fun q => ?_
    filled := fun q member => ?_
    pushed := fun o q e role straight => ?_ }
  · by_cases same : q = s.created
    · subst same; simpa using scrapPageAlloc_wellFormed _ _ _ _
    · simpa [same] using ready.wellFormed q
  · have older := (owned.live q (outgoing_subset_pipe s member)).1
    have differs : q ≠ s.created := Nat.ne_of_lt older
    simpa [differs] using ready.filled q member
  · rw [roleOf_update] at role
    have differs : o ≠ .fg t := by
      rintro rfl
      simp [Fg.role, ChunkPc.role] at role
    have before : roleOf s.fg s.closer o = .pushing q e := by simpa [differs] using role
    have older := (owned.alive_of_held (o := o) (p := q) (by
      rw [show s.custody.role o = _ from before]; rfl)).1.1
    have new : q ≠ s.created := Nat.ne_of_lt older
    simpa [new] using ready.pushed o q e before straight

theorem fg (ready : Ready cfg s) (owned : s.custody.Ownership) (move : FgMove cfg s label s') :
    Ready cfg s' := by
  have progress := ready.progress
  cases move with
  | callZero => exact { ready with }
  | callDirect | oomPage | oomDirect | unlockDone | pwrite =>
    exact { ready.reposition (by simp) (by simp [Fg.role]) with }
  | callScrap position running nonempty =>
    exact { ready.reposition (by rintro _ _ _ ⟨⟩; exact Nat.pos_of_ne_zero nonempty)
      (by simp [Fg.role, ChunkPc.role]) with }
  | gatePass position | gatePark position | parkedPass position | lookupFound position
  | lockPage position | unlockRetry position | detach position | partialInc position =>
    exact { ready.reposition (by rintro _ _ _ ⟨⟩; exact progress _ _ _ _ position)
      (by simp [Fg.role, ChunkPc.role, Enqueue.isFull]) with }
  | unlockMore position more =>
    exact { ready.reposition (by rintro _ _ _ ⟨⟩; exact more) (by simp [Fg.role, ChunkPc.role]) with }
  | alloc position => exact { ready.alloc owned position _ with }
  | decide position decision decided =>
    exact { ready.decide position (.of_eq decided) with }
  | partialPush position =>
    exact { ready.reposition (by rintro _ _ _ ⟨⟩; exact progress _ _ _ _ position)
      (by simp [Fg.role, ChunkPc.role]) with }
  | fullInc position | fullEnter position =>
    refine { ready.reposition (by rintro _ _ _ ⟨⟩; exact progress _ _ _ _ position)
      fun q e role _ => ?_ with }
    obtain ⟨rfl, -⟩ := Role.pushing.inj role
    exact ready.pushed (.fg _) _ _ (role_at position) rfl
  | @fullPush t call done p after position =>
    have moved : Ready cfg { s with fg := update s.fg t (.scrap call done (.unlock p after)) } :=
      ready.reposition (by rintro _ _ _ ⟨⟩; exact progress _ _ _ _ position)
        (by simp [Fg.role, ChunkPc.role])
    refine { moved with filled := fun q member => ?_ }
    simp only [Engine.outgoing, List.mem_append, List.mem_singleton] at member
    rcases member with (inHands | queued | rfl) | entering
    · exact ready.filled q (by simp [Engine.outgoing, inHands])
    · exact ready.filled q (by simp [Engine.outgoing, queued])
    · exact ready.pushed (.fg t) q _ (role_at position) rfl
    · exact ready.filled q (by simp [Engine.outgoing, entering])

/-- Stage-1 moves on with a full page in its hand, or with none that is on its way out. -/
theorem restage (ready : Ready cfg s) (s1 : Stage1)
    (full : ∀ p ∈ s1.entering, scrapPageIsFull (s.pages p) = true) :
    Ready cfg { s with s1 := s1 } := by
  refine { ready with filled := fun p member => ?_ }
  rcases List.mem_append.mp member with inHands | entering
  · exact ready.filled p (List.mem_append_left _ inHands)
  · exact full p entering

theorem stage1 (ready : Ready cfg s) (move : Stage1Move cfg s label s') : Ready cfg s' := by
  cases move with
  | inspectFull position free full =>
    exact { ready.restage (.forwardEnter _) (by simpa [Stage1.entering] using full) with }
  | @forwardEnter p position =>
    refine { ready.restage (.forwardPush p) fun q member => ready.filled q ?_ with }
    exact List.mem_append_right _ (by rw [position]; exact member)
  | @fillEnter p position =>
    refine { ready.restage (.fillPush p) fun q member => ready.filled q ?_ with }
    exact List.mem_append_right _ (by rw [position]; exact member)
  | forwardPush position | fillPush position =>
    refine { ready with filled := fun q member => ready.filled q ?_ }
    simpa [Engine.outgoing, Stage1.entering, position] using member
  | @fill p position free page filled =>
    have wellFormed : page.WellFormed cfg.maxEntries :=
      filled ▸ scrapPageApplyHoles_wellFormed s.scratch cfg.maxEntries_pos
    have full : scrapPageIsFull page = true := filled ▸ scrapPageApplyHoles_full s.scratch
    have repaged : Ready cfg { s with pages := update s.pages p (page.retag .full) } :=
      ready.repage { wellFormed with } fun _ => full
    refine { repaged.restage (.fillEnter p) ?_ with }
    intro q member
    obtain rfl : q = p := by simpa [Stage1.entering] using member
    dsimp only
    rw [Function.update_self]
    exact full
  | @drop p position free =>
    have repaged : Ready cfg { s with pages := update s.pages p { s.pages p with inQueue := false } } :=
      ready.repage (ready.wellFormed p) id
    exact { repaged.restage .dropDec (by simp [Stage1.entering]) with }
  | pop | exit | inspectBusy | inspectHoles | busyPush | wake | guardPass | readStart | readEnd
  | readFailed | dropDec | preadOk | preadFail =>
    exact { ready with
      filled := fun q member => ready.filled q
        (List.mem_append_left _ (by simpa [Engine.outgoing, Stage1.entering] using member)) }

/-- Stage-2 moves on with pages it already had. -/
theorem rehand (ready : Ready cfg s) (s2 : Stage2) (q2 : List PageId)
    (fewer : ∀ p ∈ s2.pages ++ q2, p ∈ s.s2.pages ++ s.q2) (settled : s2.returning = false) :
    Ready cfg { s with s2 := s2, q2 := q2 } := by
  refine { ready with filled := fun p member => ?_, settled := settled }
  rcases List.mem_append.mp member with inHands | entering
  · exact ready.filled p (List.mem_append_left _ (fewer p inHands))
  · exact ready.filled p (List.mem_append_right _ entering)

/-- The not-ready branch of `stage2_collect` is never taken. -/
theorem ready_of_check (ready : Ready cfg s) {batch : List PageId} {next : PageId}
    (position : s.s2 = .check batch next) : s.ready next = true := by
  have full := ready.filled next (by
    simp [Engine.outgoing, Stage2.pages, Stage2.kept, position])
  simp [Engine.ready, full]

theorem stage2 (ready : Ready cfg s) (move : Stage2Move s label s') : Ready cfg s' := by
  have settled := ready.settled
  cases move with
  | checkNotReady position free notReady => simp [ready.ready_of_check position] at notReady
  | pushBack position => simp [position, Stage2.returning] at settled
  | @unlink done p todo position linked free =>
    have repaged : Ready cfg { s with pages := update s.pages p { s.pages p with detached := true } } :=
      ready.repage (ready.wellFormed p) id
    refine { repaged.rehand (.tagging done p todo) s.q2 ?_ rfl with }
    simp [position, Stage2.pages, Stage2.tagged, Stage2.unlinked, Stage2.kept]
  | @tag done p todo position free =>
    have repaged : Ready cfg
        { s with
          pages := update s.pages p
            { s.pages p with hdr := { (s.pages p).hdr with tag := .flushing }, inQueue := false } } :=
      ready.repage { ready.wellFormed p with } id
    refine { repaged.rehand (.detaching (done ++ [p]) todo) s.q2 ?_ rfl with }
    simp [position, Stage2.pages, Stage2.tagged, Stage2.unlinked, Stage2.kept]
  | @pwritev batch st result position fits after outcome =>
    refine { ready.rehand (afterPwritev batch after) s.q2 ?_ ?_ with }
    · cases after <;>
        simp [afterPwritev, position, Stage2.pages, Stage2.tagged, Stage2.unlinked, Stage2.kept]
    · cases after <;> rfl
  | @free p batch position =>
    refine { ready.rehand (.leaving p (s.pages p).base batch) s.q2 ?_ rfl with }
    simp +contextual [position, Stage2.pages, Stage2.tagged, Stage2.unlinked, Stage2.kept]
  | pop position queue | collectTake position room queue =>
    refine { ready with filled := fun q member => ready.filled q ?_, settled := rfl }
    simpa [Engine.outgoing, Stage2.pages, Stage2.tagged, Stage2.unlinked, Stage2.kept, position,
      queue] using member
  | exit position | poppedBusy position | poppedGo position | busyPush position | wake position
  | collectStop position | checkReady position | detachDone position | unlinkSkip position
  | writeStart position | written position | latch position | freeDone position | leave position
  | decrement position =>
    refine { ready with filled := fun q member => ready.filled q ?_, settled := rfl }
    simpa [Engine.outgoing, Stage2.pages, Stage2.tagged, Stage2.unlinked, Stage2.kept, position,
      or_assoc, or_comm, or_left_comm] using member

/-- A step of `nox_close` that pushes nothing. -/
theorem reclose (ready : Ready cfg s) {closer : Closer}
    (pushed : ∀ p e, closer.role = .pushing p e → e.isFull = true →
      scrapPageIsFull (s.pages p) = true) :
    Ready cfg { s with closer := closer } := by
  refine { ready with pushed := fun o p e role straight => ?_ }
  cases o with
  | fg t => exact ready.pushed (.fg t) p e role straight
  | closer => exact pushed p e role straight

theorem sweepLock (ready : Ready cfg s) {p : PageId} (idle : (s.pages p).inQueue = false)
    {page : ScrapPage Cell} {enqueue : Option Enqueue}
    (chosen : (page, enqueue) = Engine.enqueueOne (s.pages p)) (err : Bool) (bucket : Nat) :
    Ready cfg
      { s with
        pages := update s.pages p page
        closer := Engine.sweepAfter err bucket p enqueue } := by
  rw [enqueueOne_idle idle] at chosen
  split at chosen
  · next full =>
    obtain ⟨rfl, rfl⟩ := Prod.mk.inj chosen
    have repaged : Ready cfg
        { s with
          pages := update s.pages p { (s.pages p).retag .full with inQueue := true } } :=
      ready.repage { ready.wellFormed p with } id
    refine { repaged.reclose fun q e role _ => ?_ with }
    obtain ⟨rfl, -⟩ := Role.pushing.inj role
    dsimp only
    rw [Function.update_self]
    exact full
  · obtain ⟨rfl, rfl⟩ := Prod.mk.inj chosen
    have repaged : Ready cfg
        { s with pages := update s.pages p { s.pages p with inQueue := true } } :=
      ready.repage { ready.wellFormed p with } id
    refine { repaged.reclose fun q e role straight => ?_ with }
    obtain ⟨-, rfl⟩ := Role.pushing.inj role
    simp [Enqueue.isFull] at straight

theorem closer (ready : Ready cfg s)
    (swept : ∀ err bucket p, s.closer = .sweep err bucket (some p) → s.lock p = none →
      (s.pages p).inQueue = false)
    (move : CloserMove s label s') : Ready cfg s' := by
  cases move with
  | @sweepLock err bucket p position alive free page enqueue chosen =>
    exact { ready.sweepLock (swept _ _ _ position free) chosen err bucket with }
  | partialInc | partialPush | sweepUnlock =>
    exact { ready.reclose (by simp [Closer.role, Enqueue.isFull]) with }
  | fullInc position | fullEnter position =>
    refine { ready.reclose fun q e role _ => ?_ with }
    obtain ⟨rfl, -⟩ := Role.pushing.inj role
    exact ready.pushed .closer _ _ (closer_role_at position) rfl
  | @fullPush err bucket p position =>
    have moved : Ready cfg { s with closer := .sweepUnlock err bucket p } :=
      ready.reclose (by simp [Closer.role])
    refine { moved with filled := fun q member => ?_ }
    simp only [Engine.outgoing, List.mem_append, List.mem_singleton] at member
    rcases member with (inHands | queued | rfl) | entering
    · exact ready.filled q (by simp [Engine.outgoing, inHands])
    · exact ready.filled q (by simp [Engine.outgoing, queued])
    · exact ready.pushed .closer q _ (closer_role_at position) rfl
    · exact ready.filled q (by simp [Engine.outgoing, entering])
  | close | disarm | firstDrain | sweepBucket | sweepDone | sweepFault | sweepNextFault | sweepNext
  | secondDrain | stopping | shutdown1 | join1 | shutdown2 | join2 | lastCheck | destroy
  | closeFd => exact { ready.reclose (by simp [Closer.role]) with }

end Ready

end NoxDB

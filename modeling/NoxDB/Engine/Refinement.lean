import NoxDB.Engine.Load
import NoxDB.Engine.Ready

/-! # The engine refines the custody protocol

Every move of the engine either leaves custody alone or is one of its steps.  The
moves that are neither (a deferred page, a page that is not ready, a page unlinked
twice) are the ones that the other invariants exclude.
-/

namespace NoxDB

open Function (update)
open Library.Lists

variable {n : Nat} {cfg : Config} {s s' : Engine n} {label : Label n}

theorem custody_repage (p : PageId) (page : ScrapPage Cell)
    (base : page.base = (s.pages p).base) (detached : page.detached = (s.pages p).detached) :
    ({ s with pages := update s.pages p page } : Engine n).custody =
      { s.custody with
        tag := update s.custody.tag p page.hdr.tag
        entries := update s.custody.entries p page.hdr.entries
        inQueue := update s.custody.inQueue p page.inQueue } := by
  have bases : (fun q => (update s.pages p page q).base) = s.custody.base := map_update_same base
  have flags : (fun q => (update s.pages p page q).detached) = s.custody.detached :=
    map_update_same detached
  have tags : (fun q => (update s.pages p page q).hdr.tag) =
      update s.custody.tag p page.hdr.tag := map_update (fun page : ScrapPage Cell => page.hdr.tag) _ _ _
  have lists : (fun q => (update s.pages p page q).hdr.entries) =
      update s.custody.entries p page.hdr.entries := map_update (fun page : ScrapPage Cell => page.hdr.entries) _ _ _
  have queued : (fun q => (update s.pages p page q).inQueue) =
      update s.custody.inQueue p page.inQueue := map_update (fun page : ScrapPage Cell => page.inQueue) _ _ _
  simp only [Engine.custody] at *
  rw [bases, flags, tags, lists, queued]

theorem custody_detach (s : Engine n) (p : PageId) :
    ({ s with pages := update s.pages p { s.pages p with detached := true } } : Engine n).custody =
      { s.custody with detached := update s.custody.detached p true } := by
  have bases : (fun q => (update s.pages p { s.pages p with detached := true } q).base) =
      s.custody.base := map_update_same rfl
  have headers : (fun q => (update s.pages p { s.pages p with detached := true } q).hdr) =
      fun q => (s.pages q).hdr := map_update_same rfl
  have queued : (fun q => (update s.pages p { s.pages p with detached := true } q).inQueue) =
      s.custody.inQueue := map_update_same rfl
  have flags : (fun q => (update s.pages p { s.pages p with detached := true } q).detached) =
      update s.custody.detached p true := map_update ScrapPage.detached _ _ _
  have tags := congrArg (fun hdr : PageId → ScrapHeader => fun q => (hdr q).tag) headers
  have lists := congrArg (fun hdr : PageId → ScrapHeader => fun q => (hdr q).entries) headers
  simp only [Engine.custody] at *
  rw [bases, tags, lists, queued, flags]

theorem role_quiet {t : Fin n} {f f' : Fg} (position : s.fg t = f) (same : f'.role = f.role) :
    roleOf (update s.fg t f') s.closer = roleOf s.fg s.closer :=
  roleOf_fg_quiet _ (by rw [position, same])

/-- A foreground move that only changes a position with no role. -/
theorem custody_quiet {t : Fin n} {f f' : Fg} (position : s.fg t = f) (same : f'.role = f.role) :
    ({ s with fg := update s.fg t f' } : Engine n).custody = s.custody :=
  congrArg (fun role => { s.custody with role }) (role_quiet position same)

theorem held_tag (owned : s.custody.Ownership) {o : Owner n} {p : PageId}
    (held : (s.custody.role o).held = some p) : (s.pages p).hdr.tag ≠ .flushing := by
  intro flushing
  obtain ⟨alive, untagged⟩ := owned.alive_of_held held
  rcases owned.tagged p flushing with tagged | freed
  · exact untagged tagged
  · simp [alive.2] at freed

theorem custody_decide (owned : s.custody.Ownership) {t : Fin n} {call : Call} {done : Nat}
    {p : PageId} {created : Bool} (position : s.fg t = .scrap call done (.held p created))
    {decision : Decision}
    (way : Decided cfg (s.pages p) created (call.cells done) (call.intra done) (call.chunk done)
      decision) :
    s.custody.Step
      ({ s with
        pages := update s.pages p decision.page
        fg := update s.fg t (.scrap call done (decision.next p)) } : Engine n).custody := by
  have role : s.custody.role (.fg t) = .holds p created := role_at position
  have open_ := way.tag_ne (held_tag owned (p := p) (o := .fg t) (by rw [role]; rfl))
  change s.custody.Step
    { ({ s with pages := update s.pages p decision.page } : Engine n).custody with
      role := roleOf (update s.fg t (.scrap call done (decision.next p))) s.closer }
  rw [custody_repage _ _ way.base way.detached]
  cases pushes : decision.enqueue with
  | some e =>
    have flags := way.inQueue_of_pushes pushes
    rw [roleOf_update, flags.2]
    simp only [Fg.role, Decision.next, pushes, ChunkPc.role]
    exact .enlist role open_ flags.1
  | none =>
    have old : created = false := by
      by_contra new
      have new : created = true := by simpa using new
      subst new
      have rights := owned.rights (.fg t)
      rw [role] at rights
      obtain ⟨-, empty, opened, idle⟩ := rights.2.2 rfl
      obtain ⟨e, pushed⟩ := way.pushes_of_fresh rfl empty opened idle
      simp [pushes] at pushed
    subst old
    have same : (s.custody.inQueue p) = decision.page.inQueue := (way.inQueue_of_stays pushes).symm
    rw [role_quiet position (by simp [Fg.role, Decision.next, pushes, ChunkPc.role]), ← same,
      Function.update_eq_self]
    exact .settle role open_

theorem custody_role (s : Engine n) (t : Fin n) (f : Fg) :
    ({ s with fg := update s.fg t f } : Engine n).custody =
      { s.custody with role := update s.custody.role (.fg t) f.role } :=
  congrArg (fun role => { s.custody with role }) (roleOf_update s.fg s.closer t f)

theorem custody_alloc (s : Engine n) (base address : Nat) (zone : Nat → Cell) :
    ({ s with
      pages := update s.pages s.created (scrapPageAlloc base 0 zone)
      addr := update s.addr s.created address } : Engine n).custody =
      { s.custody with
        addr := update s.custody.addr s.created address
        base := update s.custody.base s.created base
        tag := update s.custody.tag s.created .opened
        entries := update s.custody.entries s.created []
        inQueue := update s.custody.inQueue s.created false
        detached := update s.custody.detached s.created false } := by
  have field : ∀ {γ : Type} (f : ScrapPage Cell → γ),
      (fun q => f (update s.pages s.created (scrapPageAlloc base 0 zone) q)) =
        update (fun q => f (s.pages q)) s.created (f (scrapPageAlloc base 0 zone)) :=
    fun f => map_update f _ _ _
  have bases := field ScrapPage.base
  have tags := field fun page => page.hdr.tag
  have lists := field fun page => page.hdr.entries
  have queued := field ScrapPage.inQueue
  have flags := field ScrapPage.detached
  simp only [Engine.custody]
  rw [bases, tags, lists, queued, flags]
  rfl

theorem refines_fg (owned : s.custody.Ownership) (move : FgMove cfg s label s') :
    s'.custody = s.custody ∨ s.custody.Step s'.custody := by
  cases move with
  | callZero => exact .inl rfl
  | callDirect position | callScrap position | gatePass position | gatePark position
  | parkedPass position | oomPage position | oomDirect position | pwrite position =>
    exact .inl (custody_quiet position rfl)
  -- The shard stays locked while the thread waits for the page it has found.
  | @lookupFound t call done p position free found =>
    right
    have hit : (s.pages p).base = call.base done := by simpa using List.find?_some found
    change s.custody.Step
      { ({ s with fg := update s.fg t (.scrap call done (.lockPage p)) } : Engine n).custody with
        shard := update s.shard (Engine.shardOf (call.base done)) (some t) }
    rw [custody_role]
    exact .want (role_at position) free (List.mem_of_find?_eq_some found) hit
  -- Lookup, allocation and lock of the new page are under the shard lock, which is free again after.
  | @alloc t call done address zone position free absent unused =>
    right
    have missing : ∀ p ∈ s.buckets (piHash (call.base done)), (s.pages p).base ≠ call.base done := by
      simpa [Engine.find] using absent
    change s.custody.Step
      { ({ s with
          pages := update s.pages s.created
            (scrapPageAlloc (call.base done) 0 fun x => ⟨zone x, .uninit⟩)
          addr := update s.addr s.created address } : Engine n).custody with
        role := roleOf (update s.fg t (.scrap call done (.held s.created true))) s.closer
        lock := update s.lock s.created (some (.fg t))
        created := s.created + 1
        buckets := update s.buckets (piHash (call.base done))
          (s.created :: s.buckets (piHash (call.base done))) }
    rw [custody_alloc, roleOf_update]
    exact .create (role_at position) free missing unused
  | decide position decision decided =>
    exact .inr (custody_decide owned position (.of_eq decided))
  -- The page is locked before the shard is released.
  | @lockPage t call done p position free =>
    right
    change s.custody.Step
      { ({ s with fg := update s.fg t (.scrap call done (.held p false)) } : Engine n).custody with
        lock := update s.lock p (some (.fg t))
        shard := update s.shard (Engine.shardOf (call.base done)) none }
    rw [custody_role]
    exact .acquire (role_at position) free
  | partialInc position | fullInc position | fullEnter position =>
    exact .inr ((custody_role s _ _).symm ▸ .advance (role_at position) rfl)
  | @partialPush t call done p after position =>
    right
    change s.custody.Step
      { ({ s with fg := update s.fg t (.scrap call done (.unlock p after)) } : Engine n).custody with
        late := s.s1.pages ++ (s.q1 ++ [p]) }
    rw [custody_role, ← List.append_assoc]
    exact .pushPartial (role_at position) rfl
  | @fullPush t call done p after position =>
    right
    change s.custody.Step
      { ({ s with fg := update s.fg t (.scrap call done (.unlock p after)) } : Engine n).custody with
        early := s.s2.kept ++ (s.q2 ++ [p]) }
    rw [custody_role, ← List.append_assoc]
    exact .pushFull (role_at position) rfl
  | @unlockMore t call done p position more =>
    right
    change s.custody.Step
      { ({ s with fg := update s.fg t (.scrap call (done + call.chunk done) .gate) } :
          Engine n).custody with
        lock := update s.lock p none }
    rw [custody_role]
    exact .release (role_at position) (.inl rfl)
  | @unlockDone t call done p position last =>
    right
    change s.custody.Step
      { ({ s with fg := update s.fg t .idle } : Engine n).custody with
        lock := update s.lock p none }
    rw [custody_role]
    exact .release (role_at position) (.inl rfl)
  | @unlockRetry t call done p position =>
    right
    change s.custody.Step
      { ({ s with fg := update s.fg t (.scrap call done (.detach p)) } : Engine n).custody with
        lock := update s.lock p none }
    rw [custody_role]
    exact .release (role_at position) (.inr rfl)
  -- The address may be stale by now; custody follows whatever page is there.
  | @detach t call done p position free =>
    right
    change s.custody.Step
      { ({ s with fg := update s.fg t (.scrap call done .gate) } : Engine n).custody with
        buckets := s.custody.unlinkAddr (call.base done) (s.custody.addr p) }
    rw [custody_role]
    exact .abandon (role_at position) free

/-- Stage-1 moves on with the pages it and Queue-1 had. -/
theorem custody_stage1 {s1 : Stage1} {q1 : List PageId}
    (same : s1.pages ++ q1 = s.s1.pages ++ s.q1) :
    ({ s with s1 := s1, q1 := q1 } : Engine n).custody = s.custody :=
  congrArg (fun late => { s.custody with late }) same

theorem front_of {p : PageId} {s1 : Stage1} (position : s.s1 = s1) (hand : s1.pages = [p]) :
    s.custody.late = p :: s.q1 := by
  simp [Engine.custody, position, hand]

theorem refines_stage1 (load : Load s) (move : Stage1Move cfg s label s') :
    s'.custody = s.custody ∨ s.custody.Step s'.custody := by
  have calm := load.calm1
  have idle := load.not_busy
  cases move with
  | pop position queue => exact .inl (custody_stage1 (by rw [position, queue]; rfl))
  -- The threshold is out of reach with one thread in each stage.
  | inspectBusy _ _ _ busy => simp [idle] at busy
  | busyPush position => simp [position, Stage1.deferred] at calm
  | wake position => simp [position, Stage1.deferred] at calm
  | exit position | inspectFull position | inspectHoles position | forwardEnter position
  | guardPass position | readStart position | readEnd position | readFailed position
  | dropDec position | fillEnter position | preadOk position | preadFail position =>
    exact .inl (custody_stage1 (by rw [position]; rfl))
  | @forwardPush p position | @fillPush p position =>
    right
    change s.custody.Step
      { s.custody with early := s.s2.kept ++ (s.q2 ++ [p]), late := s.q1 }
    rw [← List.append_assoc]
    exact .forward (front_of position rfl)
  | @fill p position free page filled =>
    right
    have base : page.base = (s.pages p).base := by rw [filled]; rfl
    have detached : page.detached = (s.pages p).detached := by rw [filled]; rfl
    have queued : page.inQueue = s.custody.inQueue p := by rw [filled]; rfl
    have same : s.custody.late = [p] ++ s.q1 := front_of position rfl
    change s.custody.Step
      { ({ s with pages := update s.pages p (page.retag .full) } : Engine n).custody with
        late := [p] ++ s.q1 }
    rw [custody_repage p (page.retag .full) base detached, ← same]
    dsimp only [ScrapPage.retag]
    rw [queued, Function.update_eq_self]
    exact .fill (front_of position rfl) free
  | @drop p position free =>
    right
    change s.custody.Step
      { ({ s with pages := update s.pages p { s.pages p with inQueue := false } } :
          Engine n).custody with
        late := s.q1
        failed := true }
    rw [custody_repage p { s.pages p with inQueue := false } rfl rfl]
    have tags : update s.custody.tag p (s.pages p).hdr.tag = s.custody.tag :=
      Function.update_eq_self p s.custody.tag
    have lists : update s.custody.entries p (s.pages p).hdr.entries = s.custody.entries :=
      Function.update_eq_self p s.custody.entries
    rw [tags, lists]
    exact .drop (front_of position rfl) free

/-- Stage-2 moves on with its pages in the same places. -/
theorem custody_stage2 {s2 : Stage2} {q2 : List PageId} (tagged : s2.tagged = s.s2.tagged)
    (unlinked : s2.unlinked = s.s2.unlinked) (early : s2.kept ++ q2 = s.s2.kept ++ s.q2) :
    ({ s with s2 := s2, q2 := q2 } : Engine n).custody = s.custody := by
  change { s.custody with tagged := s2.tagged, unlinked := s2.unlinked, early := s2.kept ++ q2 } = _
  rw [tagged, unlinked, early]
  rfl

theorem refines_stage2 (load : Load s) (ready : Ready cfg s) (owned : s.custody.Ownership)
    (move : Stage2Move s label s') : s'.custody = s.custody ∨ s.custody.Step s'.custody := by
  have calm := load.calm2
  have idle := load.not_busy
  have settled := ready.settled
  cases move with
  | poppedBusy _ busy => simp [idle] at busy
  | busyPush position => simp [position, Stage2.deferred] at calm
  | wake position => simp [position, Stage2.deferred] at calm
  | pushBack position => simp [position, Stage2.returning] at settled
  | checkNotReady position free notReady => simp [ready.ready_of_check position] at notReady
  | pop position queue | collectTake position _ queue =>
    exact .inl (custody_stage2 (by rw [position]; rfl) (by rw [position]; rfl)
      (by rw [position, queue]; simp [Stage2.kept]))
  | @pwritev batch st result position fits after outcome =>
    refine .inl (custody_stage2 ?_ ?_ ?_) <;> rw [position] <;> cases after <;> rfl
  | exit position | poppedGo position | collectStop position | checkReady position
  | detachDone position | writeStart position | written position | freeDone position
  | leave position | decrement position =>
    exact .inl (custody_stage2 (by rw [position]; rfl) (by rw [position]; rfl)
      (by rw [position]; rfl))
  | @latch batch ok position =>
    have same : ({ s with s2 := .freeing batch, q2 := s.q2 } : Engine n).custody = s.custody :=
      custody_stage2 (by rw [position]; rfl) (by rw [position]; rfl) (by rw [position]; rfl)
    change _ ∨ s.custody.Step
      { ({ s with s2 := .freeing batch, q2 := s.q2 } : Engine n).custody with
        failed := s.ioErr || !ok }
    rw [same]
    exact .inr .latch
  | @unlinkSkip done p todo position already =>
    -- A page with the flag is already tagged, unlinked or freed, so it is not kept.
    have kept : p ∈ s.custody.early := by simp [Engine.custody, position, Stage2.kept]
    have waits : p ∈ s.custody.waiting := by simp [Custody.waiting, kept]
    have inPipe := Custody.mem_pipe_of_waiting waits
    rcases owned.detached p already with handed | freed
    · have nodup := owned.nodup
      simp only [Custody.pipe, Custody.waiting, List.append_assoc] at nodup
      rw [← List.append_assoc] at nodup
      exact absurd (List.mem_append_left _ kept) (List.disjoint_of_nodup_append nodup handed)
    · simp [(owned.live p inPipe).2] at freed
  | @unlink done p todo position linked free =>
    right
    change s.custody.Step
      { ({ s with pages := update s.pages p { s.pages p with detached := true } } :
          Engine n).custody with
        buckets := s.custody.unlinkAddr (s.pages p).base (s.custody.addr p)
        tagged := done
        unlinked := some p
        early := todo ++ s.q2 }
    rw [custody_detach, show done = s.custody.tagged by simp [Engine.custody, position, Stage2.tagged]]
    exact .unlink (by simp [Engine.custody, position, Stage2.unlinked])
      (by simp [Engine.custody, position, Stage2.kept]) free
  | @tag done p todo position free =>
    right
    change s.custody.Step
      { ({ s with
          pages := update s.pages p
            { s.pages p with hdr := { (s.pages p).hdr with tag := .flushing }, inQueue := false } } :
          Engine n).custody with
        tagged := done ++ [p]
        unlinked := none
        early := todo ++ s.q2 }
    have lists : update s.custody.entries p (s.pages p).hdr.entries = s.custody.entries :=
      Function.update_eq_self p s.custody.entries
    rw [custody_repage p
        { s.pages p with hdr := { (s.pages p).hdr with tag := .flushing }, inQueue := false } rfl rfl,
      lists, show done = s.custody.tagged by simp [Engine.custody, position, Stage2.tagged],
      show todo ++ s.q2 = s.custody.early by simp [Engine.custody, position, Stage2.kept]]
    exact .tag (by simp [Engine.custody, position, Stage2.unlinked]) free
  | @free p batch position =>
    right
    change s.custody.Step
      { s.custody with
        freed := update s.freed p true
        tagged := batch
        unlinked := none
        early := [] ++ s.q2 }
    rw [show none = s.custody.unlinked by simp [Engine.custody, position, Stage2.unlinked],
      show [] ++ s.q2 = s.custody.early by simp [Engine.custody, position, Stage2.kept]]
    exact .free (by simp [Engine.custody, position, Stage2.tagged])

/-! ## The pages left in the index -/

theorem mem_resident (owned : s.custody.Ownership) {p : PageId} :
    p ∈ s.resident ↔ ∃ b, p ∈ s.buckets b := by
  rw [Engine.resident, List.mem_flatMap]
  constructor
  · rintro ⟨b, -, linked⟩
    exact ⟨b, linked⟩
  · rintro ⟨b, linked⟩
    have hashed := (owned.indexed b p linked).2
    exact ⟨b, by rw [List.mem_range, ← hashed]; exact piHash_lt _, linked⟩

theorem nodup_resident (owned : s.custody.Ownership) : s.resident.Nodup := by
  refine List.nodup_flatMap.mpr ⟨fun b _ => owned.chain b, ?_⟩
  refine List.nodup_range.imp fun {b b'} differs p first second => differs ?_
  -- A chain holds only pages that hash to it.
  exact (owned.indexed b p first).2.symm.trans (owned.indexed b' p second).2

/-- What the walk over the index relies on: the page it is about to lock is linked and in no
queue, and nothing is left to write when the index is destroyed. -/
structure Swept (s : Engine n) : Prop where
  current : ∀ err bucket p, s.closer = .sweep err bucket (some p) →
    p ∈ s.buckets bucket ∧ p ∉ s.custody.pipe
  drained : ∀ err, s.closer = .destroy err → (∀ o, s.custody.role o = .none) ∧ s.custody.pipe = []

/-- A move of `nox_close` between positions with the same role. -/
theorem custody_closer {closer : Closer} (after : Closer) (position : s.closer = closer)
    (same : after.role = closer.role) :
    ({ s with closer := after } : Engine n).custody = s.custody :=
  congrArg (fun role => { s.custody with role }) (roleOf_closer_quiet s.fg (by rw [position, same]))

theorem custody_closer_role (s : Engine n) (after : Closer) :
    ({ s with closer := after } : Engine n).custody =
      { s.custody with role := update s.custody.role .closer after.role } :=
  congrArg (fun role => { s.custody with role }) (roleOf_closer_update s.fg s.closer after)

theorem step_closer {after : Closer}
    (step : s.custody.Step
      { s.custody with role := update s.custody.role .closer after.role }) :
    s.custody.Step ({ s with closer := after } : Engine n).custody := by
  rw [custody_closer_role s after]
  exact step

theorem idle_of_unqueued (owned : s.custody.Ownership) {p : PageId} (outside : p ∉ s.custody.pipe)
    (free : s.lock p = none) : (s.pages p).inQueue = false := by
  by_contra queued
  have queued : s.custody.inQueue p = true := by simpa [Engine.custody] using queued
  rcases (owned.queued p).mp queued with waits | pushes
  · exact outside (Custody.mem_pipe_of_waiting waits)
  · exact owned.not_pushing_of_free free pushes

theorem refines_closer (owned : s.custody.Ownership) (swept : Swept s)
    (move : CloserMove s label s') : s'.custody = s.custody ∨ s.custody.Step s'.custody := by
  cases move with
  | close position | disarm position | firstDrain position | sweepBucket position
  | sweepDone position | sweepFault position | sweepNextFault position | sweepNext position
  | secondDrain position | stopping position | shutdown1 position | join1 position
  | shutdown2 position | join2 position | lastCheck position | closeFd position =>
    exact .inl (custody_closer _ position rfl)
  | @sweepLock err bucket p position alive free page enqueue chosen =>
    right
    obtain ⟨member, outside⟩ := swept.current _ _ _ position
    have idle := idle_of_unqueued owned outside free
    -- A page that is in the index and in no queue has no tag of Stage-2.
    have open_ : (s.pages p).hdr.tag ≠ .flushing := by
      intro flushing
      rcases owned.tagged p flushing with tagged | freed
      · exact outside (Custody.mem_pipe_of_tagged tagged)
      · simp [(owned.indexed _ p member).1.2] at freed
    have lists : update s.custody.entries p (s.pages p).hdr.entries = s.custody.entries :=
      Function.update_eq_self p s.custody.entries
    change s.custody.Step
      { ({ s with pages := update s.pages p page } : Engine n).custody with
        role := roleOf s.fg (Engine.sweepAfter err bucket p enqueue)
        lock := update s.lock p (some .closer) }
    rw [roleOf_closer_update s.fg s.closer]
    rw [enqueueOne_idle idle] at chosen
    split at chosen
    · obtain ⟨rfl, rfl⟩ := Prod.mk.inj chosen
      rw [custody_repage p { (s.pages p).retag .full with inQueue := true } rfl rfl]
      dsimp only [ScrapPage.retag]
      rw [lists]
      exact .sweep (closer_role_at position) free member outside (by simp)
    · obtain ⟨rfl, rfl⟩ := Prod.mk.inj chosen
      rw [custody_repage p { s.pages p with inQueue := true } rfl rfl]
      dsimp only
      rw [lists]
      exact .sweep (closer_role_at position) free member outside open_
  | partialInc position | fullInc position | fullEnter position =>
    exact .inr (step_closer (.advance (closer_role_at position) rfl))
  | @partialPush err bucket p position =>
    right
    change s.custody.Step
      { ({ s with closer := .sweepUnlock err bucket p } : Engine n).custody with
        late := s.s1.pages ++ (s.q1 ++ [p]) }
    rw [custody_closer_role s (.sweepUnlock err bucket p), ← List.append_assoc]
    exact .pushPartial (closer_role_at position) rfl
  | @fullPush err bucket p position =>
    right
    change s.custody.Step
      { ({ s with closer := .sweepUnlock err bucket p } : Engine n).custody with
        early := s.s2.kept ++ (s.q2 ++ [p]) }
    rw [custody_closer_role s (.sweepUnlock err bucket p), ← List.append_assoc]
    exact .pushFull (closer_role_at position) rfl
  | @sweepUnlock err bucket p position =>
    right
    change s.custody.Step
      { ({ s with closer := .sweepNext err bucket p } : Engine n).custody with
        lock := update s.lock p none }
    rw [custody_closer_role s (.sweepNext err bucket p)]
    exact .release (closer_role_at position) (.inl rfl)
  | @destroy err position =>
    right
    -- Both queues are empty and nobody carries a page, so what is left is in the index.
    obtain ⟨idle, drained⟩ := swept.drained err position
    change s.custody.Step
      { ({ s with closer := .closeFd err } : Engine n).custody with
        freed := fun p => s.freed p || s.resident.contains p
        buckets := fun _ => [] }
    rw [custody_closer (.closeFd err) position rfl]
    exact .destroy idle drained fun p => mem_resident owned

end NoxDB

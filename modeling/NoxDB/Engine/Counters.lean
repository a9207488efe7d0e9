import NoxDB.Engine.Refinement
import NoxDB.Library.Counting

/-! # The two counters of the flusher

`pending` is the number of pages that were enqueued and not yet written or dropped,
and `wb` counts, slot by slot, the pages between `wb_guard_enter` and
`wb_guard_leave`.  Both are read off the positions of the pages; threads that are in
the middle of a push carry their page themselves.
-/

namespace NoxDB

open Function (update)
open Library.Lists
open Library.Counting

variable {n : Nat}

/-! ## Pages that threads carry -/

/-- The threads that can hold a page lock. -/
def owners (n : Nat) : List (Owner n) := .closer :: (List.finRange n).map .fg

theorem mem_owners (o : Owner n) : o ∈ owners n := by
  cases o <;> simp [owners]

theorem nodup_owners (n : Nat) : (owners n).Nodup := by
  refine List.nodup_cons.mpr ⟨by simp, ?_⟩
  exact (List.nodup_finRange n).map fun _ _ same => by simpa using same

/-- The pages carried in a role that `pick` selects. -/
def carriers (pick : Role → Option PageId) (role : Owner n → Role) : List PageId :=
  (owners n).filterMap fun o => pick (role o)

section Carriers

variable {pick : Role → Option PageId} {role : Owner n → Role} {o : Owner n} {r : Role} {p : PageId}

theorem mem_carriers : p ∈ carriers pick role ↔ ∃ o, pick (role o) = some p := by
  simp [carriers, mem_owners]

theorem carriers_nil (empty : ∀ o, pick (role o) = none) : carriers pick role = [] := by
  simpa [carriers] using fun o _ => empty o

theorem carriers_same (same : pick r = pick (role o)) :
    carriers pick (update role o r) = carriers pick role := by
  rw [carriers, map_update_same same, carriers]

theorem carriers_gain (before : pick (role o) = none) (after : pick r = some p) :
    (carriers pick (update role o r)).Perm (p :: carriers pick role) := by
  rw [carriers, map_update pick, after]
  exact filterMap_update_some (nodup_owners n) (mem_owners o) before

theorem carriers_loss (before : pick (role o) = some p) (after : pick r = none) :
    (carriers pick role).Perm (p :: carriers pick (update role o r)) := by
  have dropped : carriers pick (update role o r) =
      (owners n).filterMap (update (fun o => pick (role o)) o none) := by
    rw [carriers, map_update pick, after]
  rw [dropped]
  exact filterMap_update_none (nodup_owners n) (mem_owners o) before

variable {s : Engine n} {t : Fin n} {f : Fg} {closer : Closer} (pick)

theorem carriers_fg_same (next : Fg) (position : s.fg t = f) (same : pick next.role = pick f.role) :
    carriers pick (roleOf (update s.fg t next) s.closer) = carriers pick (roleOf s.fg s.closer) := by
  rw [roleOf_update]
  exact carriers_same (by rw [role_at position, same])

theorem carriers_fg_gain (next : Fg) (position : s.fg t = f) (before : pick f.role = none)
    (after : pick next.role = some p) :
    (carriers pick (roleOf (update s.fg t next) s.closer)).Perm
      (p :: carriers pick (roleOf s.fg s.closer)) := by
  rw [roleOf_update]
  exact carriers_gain (by rw [role_at position, before]) after

theorem carriers_fg_loss (next : Fg) (position : s.fg t = f) (before : pick f.role = some p)
    (after : pick next.role = none) :
    (carriers pick (roleOf s.fg s.closer)).Perm
      (p :: carriers pick (roleOf (update s.fg t next) s.closer)) := by
  rw [roleOf_update]
  exact carriers_loss (by rw [role_at position, before]) after

theorem carriers_closer_same (next : Closer) (position : s.closer = closer)
    (same : pick next.role = pick closer.role) :
    carriers pick (roleOf s.fg next) = carriers pick (roleOf s.fg s.closer) := by
  rw [roleOf_closer_update s.fg s.closer]
  exact carriers_same (by rw [closer_role_at position, same])

theorem carriers_closer_gain (next : Closer) (position : s.closer = closer)
    (before : pick closer.role = none) (after : pick next.role = some p) :
    (carriers pick (roleOf s.fg next)).Perm (p :: carriers pick (roleOf s.fg s.closer)) := by
  rw [roleOf_closer_update s.fg s.closer next]
  exact carriers_gain (by rw [closer_role_at position, before]) after

theorem carriers_closer_loss (next : Closer) (position : s.closer = closer)
    (before : pick closer.role = some p) (after : pick next.role = none) :
    (carriers pick (roleOf s.fg s.closer)).Perm (p :: carriers pick (roleOf s.fg next)) := by
  rw [roleOf_closer_update s.fg s.closer next]
  exact carriers_loss (by rw [closer_role_at position, before]) after

end Carriers

/-- The page of a push that has incremented `pending`. -/
def Role.counted : Role → Option PageId
  | .pushing p .partialPush | .pushing p .fullEnter | .pushing p .fullPush => some p
  | _ => .none

/-- The page of a push that has entered the guard. -/
def Role.entered : Role → Option PageId
  | .pushing p .fullPush => some p
  | _ => .none

/-! ## `pending` -/

/-- Stage-1 dropped a page it has not discounted yet. -/
def Stage1.owing : Stage1 → Nat
  | .dropDec => 1
  | _ => 0

/-- Stage-2 freed a page it has not discounted yet. -/
def Stage2.owing : Stage2 → Nat
  | .leaving _ _ _ | .decrement _ => 1
  | _ => 0

/-- What `pending` stands for. -/
def Engine.outstanding (s : Engine n) : Nat :=
  s.s2.pages.length + s.q2.length + s.s1.pages.length + s.q1.length +
    (carriers Role.counted (roleOf s.fg s.closer)).length + s.s1.owing + s.s2.owing

abbrev Pending (s : Engine n) : Prop := s.pending = s.outstanding

theorem init_role (cfg : Config) (file : File) (scratch : Nat → UInt8) (o : Owner n) :
    roleOf (Engine.init n cfg file scratch).fg (Engine.init n cfg file scratch).closer o = .none := by
  cases o <;> rfl

namespace Pending

variable {cfg : Config} {s s' : Engine n} {label : Label n}

theorem init (cfg : Config) (file : File) (scratch : Nat → UInt8) :
    Pending (Engine.init n cfg file scratch) := by
  rw [Pending, Engine.outstanding, carriers_nil fun o => by rw [init_role]; rfl]
  rfl

theorem outstanding_fg_same {t : Fin n} {f next : Fg} (position : s.fg t = f)
    (same : next.role.counted = f.role.counted) :
    s.outstanding = ({ s with fg := update s.fg t next } : Engine n).outstanding := by
  simp only [Engine.outstanding]
  rw [carriers_fg_same Role.counted next position same]

theorem outstanding_closer_same {closer next : Closer} (position : s.closer = closer)
    (same : next.role.counted = closer.role.counted) :
    s.outstanding = ({ s with closer := next } : Engine n).outstanding := by
  simp only [Engine.outstanding]
  rw [carriers_closer_same Role.counted next position same]

theorem fg (pending : Pending s) (move : FgMove cfg s label s') : Pending s' := by
  have count := pending
  simp only [Pending, Engine.outstanding] at count
  cases move with
  | callZero => exact pending
  | callDirect position | callScrap position | gatePass position | gatePark position
  | parkedPass position | lookupFound position | alloc position | oomPage position
  | oomDirect position | lockPage position | unlockMore position | unlockDone position
  | unlockRetry position | detach position | pwrite position | fullEnter position =>
    exact pending.trans (outstanding_fg_same position (by rfl))
  | @decide t call done p created position decision decided =>
    refine pending.trans (outstanding_fg_same position ?_)
    have way := NoxDB.decided cfg (s.pages p) created (call.cells done) (call.intra done)
      (call.chunk done)
    rw [← decided] at way
    cases way <;> rfl
  | @partialInc t call done p after position =>
    have more := (carriers_fg_gain Role.counted (.scrap call done (.enqueue p .partialPush after))
      position rfl rfl).length_eq
    rw [List.length_cons] at more
    simp only [Pending, Engine.outstanding]
    omega
  | @fullInc t call done p after position =>
    have more := (carriers_fg_gain Role.counted (.scrap call done (.enqueue p .fullEnter after))
      position rfl rfl).length_eq
    rw [List.length_cons] at more
    simp only [Pending, Engine.outstanding]
    omega
  | @partialPush t call done p after position | @fullPush t call done p after position =>
    have fewer := (carriers_fg_loss Role.counted (.scrap call done (.unlock p after))
      position rfl rfl).length_eq
    rw [List.length_cons] at fewer
    simp only [Pending, Engine.outstanding, List.length_append, List.length_singleton]
    omega

theorem stage1 (pending : Pending s) (move : Stage1Move cfg s label s') : Pending s' := by
  have count := pending
  simp only [Pending, Engine.outstanding] at count ⊢
  cases move with
  | pop position queue =>
    rw [position, queue] at count
    simp only [Stage1.pages, Stage1.owing, List.length_cons, List.length_nil] at count ⊢
    omega
  | exit position | inspectFull position | inspectBusy position | inspectHoles position
  | forwardEnter position | forwardPush position | busyPush position | wake position
  | guardPass position | readStart position | readEnd position | readFailed position
  | fill position | drop position | dropDec position | fillEnter position | fillPush position
  | preadOk position | preadFail position =>
    rw [position] at count
    simp only [Stage1.pages, Stage1.owing, List.length_cons, List.length_nil,
      List.length_append] at count ⊢
    omega

theorem stage2 (pending : Pending s) (move : Stage2Move s label s') : Pending s' := by
  have count := pending
  simp only [Pending, Engine.outstanding] at count ⊢
  cases move with
  | pop position queue | collectTake position _ queue =>
    rw [position, queue] at count
    simp only [Stage2.pages, Stage2.tagged, Stage2.unlinked, Stage2.kept, Stage2.owing,
      List.length_cons, List.length_nil, List.length_append, Option.toList] at count ⊢
    omega
  | pwritev position fits after outcome =>
    rw [position] at count
    cases after <;> exact count
  | exit position | poppedBusy position | poppedGo position | busyPush position | wake position
  | collectStop position | checkReady position | checkNotReady position | pushBack position
  | detachDone position | unlinkSkip position | unlink position | tag position
  | writeStart position | written position | latch position | freeDone position | free position
  | leave position | decrement position =>
    rw [position] at count
    simp only [Stage2.pages, Stage2.tagged, Stage2.unlinked, Stage2.kept, Stage2.owing,
      List.length_cons, List.length_nil, List.length_append, Option.toList] at count ⊢
    omega

theorem closer (pending : Pending s) (move : CloserMove s label s') : Pending s' := by
  have count := pending
  simp only [Pending, Engine.outstanding] at count
  cases move with
  | close position | disarm position | firstDrain position | sweepBucket position
  | sweepDone position | sweepFault position | fullEnter position | sweepUnlock position
  | sweepNextFault position | sweepNext position | secondDrain position | stopping position
  | shutdown1 position | join1 position | shutdown2 position | join2 position
  | lastCheck position | destroy position | closeFd position =>
    exact pending.trans (outstanding_closer_same position (by rfl))
  | @sweepLock err bucket p position alive free page enqueue chosen =>
    refine pending.trans (outstanding_closer_same position ?_)
    rw [show enqueue = (Engine.enqueueOne (s.pages p)).2 from congrArg Prod.snd chosen]
    simp only [Engine.enqueueOne, enqueueFull, enqueuePartial]
    split <;> split <;> rfl
  | @partialInc err bucket p position =>
    have more := (carriers_closer_gain Role.counted (.sweepEnqueue err bucket p .partialPush)
      position rfl rfl).length_eq
    rw [List.length_cons] at more
    simp only [Pending, Engine.outstanding]
    omega
  | @fullInc err bucket p position =>
    have more := (carriers_closer_gain Role.counted (.sweepEnqueue err bucket p .fullEnter)
      position rfl rfl).length_eq
    rw [List.length_cons] at more
    simp only [Pending, Engine.outstanding]
    omega
  | @partialPush err bucket p position | @fullPush err bucket p position =>
    have fewer := (carriers_closer_loss Role.counted (.sweepUnlock err bucket p)
      position rfl rfl).length_eq
    rw [List.length_cons] at fewer
    simp only [Pending, Engine.outstanding, List.length_append, List.length_singleton]
    omega

end Pending

/-! ## The writeback guard -/

/-- Stage-1 has entered its page in the guard and not pushed it yet. -/
def Stage1.entered : Stage1 → List PageId
  | .forwardPush p | .fillPush p => [p]
  | _ => []

/-- Stage-2 has freed the page and not left the guard yet. -/
def Stage2.leaver : Stage2 → List PageId
  | .leaving p _ _ => [p]
  | _ => []

/-- The pages between `wb_guard_enter` and `wb_guard_leave`. -/
def Engine.guarded (s : Engine n) : List PageId :=
  s.s2.leaver ++ s.s2.pages ++ s.q2 ++ s.s1.entered ++
    carriers Role.entered (roleOf s.fg s.closer)

structure Guard (s : Engine n) : Prop where
  tally : Tally (fun p => wbSlot (s.pages p).base) s.guarded s.wb
  left : ∀ p base batch, s.s2 = .leaving p base batch → base = (s.pages p).base ∧ p < s.created

theorem Custody.Step.base_eq {c c' : Custody n} (step : c.Step c') :
    ∀ p < c.created, c'.base p = c.base p := by
  intro p old
  cases step with
  | create => exact Function.update_of_ne (Nat.ne_of_lt old) _ _
  | _ => rfl

theorem base_stable {s s' : Engine n} (refined : s'.custody = s.custody ∨ s.custody.Step s'.custody) :
    ∀ p < s.created, (s'.pages p).base = (s.pages p).base := by
  intro p old
  rcases refined with same | step
  · exact congrFun (congrArg Custody.base same) p
  · exact step.base_eq p old

namespace Guard

variable {cfg : Config} {s s' : Engine n} {label : Label n}

theorem init (cfg : Config) (file : File) (scratch : Nat → UInt8) :
    Guard (Engine.init n cfg file scratch) := by
  refine ⟨?_, by simp [Engine.init]⟩
  rw [Engine.guarded, carriers_nil fun o => by rw [init_role]; rfl]
  exact .nil _

theorem lt_created (guard : Guard s) (owned : s.custody.Ownership) :
    ∀ p ∈ s.guarded, p < s.created := by
  intro p member
  have pipe : p ∈ s.custody.pipe → p < s.created := fun member => (owned.live p member).1
  simp only [Engine.guarded, List.mem_append] at member
  rcases member with (((leaver | hands) | queued) | entered) | carried
  · cases position : s.s2 with
    | leaving q base batch =>
      obtain rfl : p = q := by simpa [position, Stage2.leaver] using leaver
      exact (guard.left p base batch position).2
    | _ => simp [position, Stage2.leaver] at leaver
  · exact pipe (outgoing_subset_pipe s (by simp [Engine.outgoing, hands]))
  · exact pipe (outgoing_subset_pipe s (by simp [Engine.outgoing, queued]))
  · have entering : p ∈ s.s1.entering := by
      revert entered
      cases s.s1 <;> simp [Stage1.entered, Stage1.entering]
    exact pipe (outgoing_subset_pipe s (by simp [Engine.outgoing, entering]))
  · obtain ⟨o, carries⟩ := mem_carriers.mp carried
    have held : (s.custody.role o).held = some p := by
      revert carries
      change Role.entered (s.custody.role o) = some p → _
      cases s.custody.role o with
      | pushing q e => cases e <;> simp [Role.entered, Role.held]
      | _ => simp [Role.entered]
    exact (owned.alive_of_held held).1.1

section Transfer

variable (guard : Guard s) (owned : s.custody.Ownership)
  (bases : ∀ p < s.created, (s'.pages p).base = (s.pages p).base)
include guard owned bases

theorem rekeyed : Tally (fun p => wbSlot (s'.pages p).base) s.guarded s.wb :=
  guard.tally.congr fun p member => by rw [bases p (guard.lt_created owned p member)]

theorem same (perm : s'.guarded.Perm s.guarded) (wb : s'.wb = s.wb) :
    Tally (fun p => wbSlot (s'.pages p).base) s'.guarded s'.wb := by
  rw [wb]
  exact (guard.rekeyed owned bases).perm perm

theorem enter {p : PageId} (old : p < s.created) (perm : s'.guarded.Perm (p :: s.guarded))
    (wb : s'.wb = update s.wb (wbSlot (s.pages p).base) (s.wb (wbSlot (s.pages p).base) + 1)) :
    Tally (fun p => wbSlot (s'.pages p).base) s'.guarded s'.wb := by
  have entered := ((guard.rekeyed owned bases).insert p).perm perm
  rw [wb, ← bases p old]
  exact entered

end Transfer

theorem guarded_fg_same {t : Fin n} {f next : Fg} (position : s.fg t = f)
    (same : next.role.entered = f.role.entered) :
    ({ s with fg := update s.fg t next } : Engine n).guarded = s.guarded := by
  simp only [Engine.guarded]
  rw [carriers_fg_same Role.entered next position same]

theorem guarded_closer_same {closer next : Closer} (position : s.closer = closer)
    (same : next.role.entered = closer.role.entered) :
    ({ s with closer := next } : Engine n).guarded = s.guarded := by
  simp only [Engine.guarded]
  rw [carriers_closer_same Role.entered next position same]

/-- A push to Queue-2 takes over the page its thread carried. -/
theorem guarded_push {before after : List PageId} {p : PageId} (q2 : List PageId)
    (loss : before.Perm (p :: after)) (hands entered : List PageId) :
    (hands ++ (q2 ++ [p]) ++ entered ++ after).Perm (hands ++ q2 ++ entered ++ before) := by
  rw [List.perm_iff_count]
  intro a
  have counted := loss.count_eq a
  simp only [List.count_append, List.count_cons, List.count_nil] at counted ⊢
  omega

theorem fg (guard : Guard s) (owned : s.custody.Ownership) (move : FgMove cfg s label s') :
    Guard s' := by
  have bases := base_stable (refines_fg owned move)
  have older : s.created ≤ s'.created := by cases move <;> simp
  have left : ∀ p base batch, s'.s2 = .leaving p base batch →
      base = (s'.pages p).base ∧ p < s'.created := by
    intro p base batch position
    obtain ⟨same, old⟩ := guard.left p base batch (by cases move <;> exact position)
    exact ⟨by rw [bases p old, same], lt_of_lt_of_le old older⟩
  refine ⟨?_, left⟩
  cases move with
  | callZero => exact guard.tally
  | callDirect position | callScrap position | gatePass position | gatePark position
  | parkedPass position | lookupFound position | alloc position | oomPage position
  | oomDirect position | lockPage position | unlockMore position | unlockDone position
  | unlockRetry position | detach position | pwrite position | partialInc position
  | partialPush position | fullInc position =>
    exact guard.same owned bases (.of_eq (guarded_fg_same position (by rfl))) rfl
  | @decide t call done p created position decision decided =>
    refine guard.same owned bases (.of_eq (guarded_fg_same position ?_)) rfl
    have way := NoxDB.decided cfg (s.pages p) created (call.cells done) (call.intra done)
      (call.chunk done)
    rw [← decided] at way
    cases way <;> rfl
  | @fullEnter t call done p after position =>
    have alive := (owned.alive_of_held (o := .fg t) (p := p) (by
      rw [show s.custody.role (.fg t) = _ from role_at position]; rfl)).1
    refine guard.enter owned bases alive.1 ?_ rfl
    exact ((carriers_fg_gain Role.entered (.scrap call done (.enqueue p .fullPush after)) position
      rfl rfl).append_left _).trans List.perm_middle
  | @fullPush t call done p after position =>
    exact guard.same owned bases (guarded_push s.q2
      (carriers_fg_loss Role.entered (.scrap call done (.unlock p after)) position rfl rfl) _ _) rfl

theorem closer (guard : Guard s) (owned : s.custody.Ownership) (swept : Swept s)
    (move : CloserMove s label s') : Guard s' := by
  have bases := base_stable (refines_closer owned swept move)
  have left : ∀ p base batch, s'.s2 = .leaving p base batch →
      base = (s'.pages p).base ∧ p < s'.created := by
    intro p base batch position
    obtain ⟨same, old⟩ := guard.left p base batch (by cases move <;> exact position)
    exact ⟨by rw [bases p old, same], by cases move <;> exact old⟩
  refine ⟨?_, left⟩
  cases move with
  | close position | disarm position | firstDrain position | sweepBucket position
  | sweepDone position | sweepFault position | partialInc position | partialPush position
  | fullInc position | sweepUnlock position | sweepNextFault position | sweepNext position
  | secondDrain position | stopping position | shutdown1 position | join1 position
  | shutdown2 position | join2 position | lastCheck position | destroy position
  | closeFd position =>
    exact guard.same owned bases (.of_eq (guarded_closer_same position (by rfl))) rfl
  | @sweepLock err bucket p position alive free page enqueue chosen =>
    refine guard.same owned bases (.of_eq (guarded_closer_same position ?_)) rfl
    rw [show enqueue = (Engine.enqueueOne (s.pages p)).2 from congrArg Prod.snd chosen]
    simp only [Engine.enqueueOne, enqueueFull, enqueuePartial]
    split <;> split <;> rfl
  | @fullEnter err bucket p position =>
    have alive := (owned.alive_of_held (o := .closer) (p := p) (by
      rw [show s.custody.role .closer = _ from closer_role_at position]; rfl)).1
    refine guard.enter owned bases alive.1 ?_ rfl
    exact ((carriers_closer_gain Role.entered (.sweepEnqueue err bucket p .fullPush) position
      rfl rfl).append_left _).trans List.perm_middle
  | @fullPush err bucket p position =>
    exact guard.same owned bases (guarded_push s.q2
      (carriers_closer_loss Role.entered (.sweepUnlock err bucket p) position rfl rfl) _ _) rfl

theorem stage1 (guard : Guard s) (owned : s.custody.Ownership) (load : Load s)
    (move : Stage1Move cfg s label s') : Guard s' := by
  have bases := base_stable (refines_stage1 load move)
  have left : ∀ p base batch, s'.s2 = .leaving p base batch →
      base = (s'.pages p).base ∧ p < s'.created := by
    intro p base batch position
    obtain ⟨same, old⟩ := guard.left p base batch (by cases move <;> exact position)
    exact ⟨by rw [bases p old, same], by cases move <;> exact old⟩
  refine ⟨?_, left⟩
  have entering : ∀ {p : PageId}, p ∈ s.s1.pages → p < s.created := fun member =>
    (owned.live _ (Custody.mem_pipe_of_waiting (by
      simp [Custody.waiting, Engine.custody, member]))).1
  cases move with
  | @forwardEnter p position | @fillEnter p position =>
    refine guard.enter owned bases (entering (by simp [position, Stage1.pages])) ?_ rfl
    simp only [Engine.guarded, position, Stage1.entered, List.append_nil]
    rw [List.append_assoc]
    exact List.perm_middle
  | forwardPush position | fillPush position =>
    refine guard.same owned bases (.of_eq ?_) rfl
    simp [Engine.guarded, position, Stage1.entered]
  | pop position | exit position | inspectFull position | inspectBusy position
  | inspectHoles position | busyPush position | wake position | guardPass position
  | readStart position | readEnd position | readFailed position | fill position | drop position
  | dropDec position | preadOk position | preadFail position =>
    refine guard.same owned bases (.of_eq ?_) rfl
    simp only [Engine.guarded, position, Stage1.entered]

theorem stage2 (guard : Guard s) (owned : s.custody.Ownership) (load : Load s)
    (ready : Ready cfg s) (move : Stage2Move s label s') : Guard s' := by
  have bases := base_stable (refines_stage2 load ready owned move)
  have calm := load.calm2
  have settled := ready.settled
  cases move with
  | pop position queue | collectTake position _ queue =>
    refine ⟨guard.same owned bases (.of_eq ?_) rfl, by simp⟩
    simp [Engine.guarded, position, queue, Stage2.leaver, Stage2.pages, Stage2.tagged,
      Stage2.unlinked, Stage2.kept]
  | @pwritev batch st result position fits after outcome =>
    refine ⟨guard.same owned bases (.of_eq ?_) rfl, ?_⟩
    · cases after <;> simp [Engine.guarded, position, afterPwritev, Stage2.leaver, Stage2.pages,
        Stage2.tagged, Stage2.unlinked, Stage2.kept]
    · cases after <;> simp [afterPwritev]
  | @free p batch position =>
    refine ⟨guard.same owned bases (.of_eq ?_) rfl, ?_⟩
    · simp [Engine.guarded, position, Stage2.leaver, Stage2.pages, Stage2.tagged,
        Stage2.unlinked, Stage2.kept]
    · rintro q base rest ⟨⟩
      exact ⟨rfl, (owned.live p (Custody.mem_pipe_of_tagged (by
        simp [Engine.custody, position, Stage2.tagged]))).1⟩
  | @leave p doneBase batch position wb wbLeft =>
    refine ⟨?_, by simp⟩
    -- The base was kept before the page was freed, because the guard counts bases.
    obtain ⟨rfl, old⟩ := guard.left p doneBase batch position
    have gone : s.guarded = p :: Engine.guarded { s with wb := wb, s2 := .decrement batch } := by
      simp [Engine.guarded, position, Stage2.leaver, Stage2.pages, Stage2.tagged,
        Stage2.unlinked, Stage2.kept]
    have tally := guard.tally
    rw [gone] at tally
    have positive := tally.pos
    rw [wbLeft, Engine.wbGuardLeave, if_pos positive]
    exact tally.remove
  | exit position | poppedBusy position | poppedGo position | collectStop position
  | checkReady position | detachDone position | unlinkSkip position
  | unlink position | tag position | writeStart position | written position | latch position
  | freeDone position | decrement position =>
    refine ⟨guard.same owned bases (.of_eq ?_) rfl, by simp⟩
    simp [Engine.guarded, position, Stage2.leaver, Stage2.pages, Stage2.tagged,
      Stage2.unlinked, Stage2.kept]
  | busyPush position => simp [position, Stage2.deferred] at calm
  | wake position => simp [position, Stage2.deferred] at calm
  | pushBack position => simp [position, Stage2.returning] at settled
  | checkNotReady position free notReady => simp [ready.ready_of_check position] at notReady

end Guard

end NoxDB

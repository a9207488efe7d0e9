import NoxDB.Engine.Counters

/-! # Shutdown

The phases of `nox_close`: no writer is left once it starts, the stages exit with
empty queues, and the walk over the index meets only pages that are in no queue.
The last point rests on the first drain: `pending` is then zero, so nothing is
queued, and from then on only the walk itself queues pages.
-/

namespace NoxDB

open Function (update)

variable {n : Nat}

/-- How far `nox_close` has come. -/
def Closer.phase : Closer → Nat
  | .running => 0
  | .disarm => 1
  | .firstDrain => 2
  | .sweep _ _ _ | .sweepEnqueue _ _ _ _ | .sweepUnlock _ _ _ | .sweepNext _ _ _ | .fault => 3
  | .secondDrain _ => 4
  | .stopping _ => 5
  | .shutdown1 _ => 6
  | .join1 _ => 7
  | .shutdown2 _ => 8
  | .join2 _ => 9
  | .lastCheck _ => 10
  | .destroy _ => 11
  | .closeFd _ => 12
  | .returned _ => 13

theorem phase_mono {cfg : Config} {s s' : Engine n} {label : Label n} (move : Move cfg s label s') :
    s.closer.phase ≤ s'.closer.phase := by
  cases move with
  | fg move => cases move <;> exact le_rfl
  | stage1 move => cases move <;> exact le_rfl
  | stage2 move => cases move <;> exact le_rfl
  | closer move =>
    cases move with
    | @sweepLock err bucket p position alive free page enqueue chosen =>
      rw [position]
      cases enqueue <;> exact le_rfl
    | close position | disarm position | firstDrain position | sweepBucket position
    | sweepDone position | sweepFault position | partialInc position | partialPush position
    | fullInc position | fullEnter position | fullPush position | sweepUnlock position
    | sweepNextFault position | sweepNext position | secondDrain position | stopping position
    | shutdown1 position | join1 position | shutdown2 position | join2 position
    | lastCheck position | destroy position | closeFd position => simp [position, Closer.phase]

structure Phases (s : Engine n) : Prop where
  idle : 0 < s.closer.phase → ∀ t, s.fg t = .idle
  shut1 : s.shut1 = true → 7 ≤ s.closer.phase
  exited1 : s.s1 = .exited → s.shut1 = true ∧ s.q1 = []
  joined1 : 8 ≤ s.closer.phase → s.s1 = .exited
  shut2 : s.shut2 = true → 9 ≤ s.closer.phase
  exited2 : s.s2 = .exited → s.shut2 = true ∧ s.q2 = []
  joined2 : 10 ≤ s.closer.phase → s.s2 = .exited

namespace Phases

variable {cfg : Config} {s s' : Engine n} {label : Label n}

theorem init (cfg : Config) (file : File) (scratch : Nat → UInt8) :
    Phases (Engine.init n cfg file scratch) := by
  constructor <;> simp [Engine.init, Closer.phase]

/-- The foreground moves only before `nox_close` starts. -/
theorem running_of_idle (writers : 0 < s.closer.phase → ∀ t, s.fg t = .idle)
    (move : FgMove cfg s label s') : s.closer.phase = 0 := by
  by_contra started
  have idle := writers (Nat.pos_of_ne_zero started)
  cases move with
  | callZero _ running | callDirect _ running | callScrap _ running =>
    simp [running, Closer.phase] at started
  | gatePass position | gatePark position | parkedPass position | lookupFound position
  | alloc position | oomPage position | oomDirect position | lockPage position | decide position
  | partialInc position | partialPush position | fullInc position | fullEnter position
  | fullPush position | unlockMore position | unlockDone position | unlockRetry position
  | detach position | pwrite position => simp [idle] at position

theorem running (phases : Phases s) (move : FgMove cfg s label s') : s.closer.phase = 0 :=
  running_of_idle phases.idle move

theorem exited1_phase (phases : Phases s) (exited : s.s1 = .exited) : 7 ≤ s.closer.phase :=
  phases.shut1 (phases.exited1 exited).1

theorem exited2_phase (phases : Phases s) (exited : s.s2 = .exited) : 9 ≤ s.closer.phase :=
  phases.shut2 (phases.exited2 exited).1

theorem fg (phases : Phases s) (move : FgMove cfg s label s') : Phases s' := by
  have running := phases.running move
  have alive1 : s.s1 ≠ .exited := fun exited => by
    have := phases.exited1_phase exited
    omega
  have alive2 : s.s2 ≠ .exited := fun exited => by
    have := phases.exited2_phase exited
    omega
  cases move <;> exact
    { phases with
      idle := fun started => by dsimp only at started; omega
      exited1 := fun exited => absurd exited alive1
      exited2 := fun exited => absurd exited alive2 }

theorem stage1 (phases : Phases s) (move : Stage1Move cfg s label s') : Phases s' := by
  have alive1 : s.s1 ≠ .exited := by
    intro exited
    cases move <;> simp_all
  have unjoined : ¬ 8 ≤ s.closer.phase := fun late => alive1 (phases.joined1 late)
  have alive2 : s.s2 ≠ .exited := fun exited =>
    unjoined (le_trans (by decide) (phases.exited2_phase exited))
  cases move with
  | exit position queue shut =>
    exact { phases with
      exited1 := fun _ => ⟨shut, queue⟩
      joined1 := fun _ => rfl }
  | _ =>
    exact { phases with
      exited1 := fun exited => by simp at exited
      joined1 := fun late => absurd late unjoined
      exited2 := fun exited => absurd exited alive2 }

theorem stage2 (phases : Phases s) (move : Stage2Move s label s') : Phases s' := by
  have alive2 : s.s2 ≠ .exited := by
    intro exited
    cases move <;> simp_all
  have unjoined : ¬ 10 ≤ s.closer.phase := fun late => alive2 (phases.joined2 late)
  cases move with
  | exit position queue shut =>
    exact { phases with
      exited2 := fun _ => ⟨shut, queue⟩
      joined2 := fun _ => rfl }
  | pwritev position fits after outcome =>
    exact { phases with
      exited2 := fun exited => by cases after <;> simp [afterPwritev] at exited
      joined2 := fun late => absurd late unjoined }
  | _ =>
    exact { phases with
      exited2 := fun exited => by simp at exited
      joined2 := fun late => absurd late unjoined }

theorem advance (phases : Phases s) (next : Closer) (grows : s.closer.phase ≤ next.phase)
    (idle : ∀ t, s.fg t = .idle)
    (joined1 : 8 ≤ next.phase → 8 ≤ s.closer.phase ∨ s.s1 = .exited)
    (joined2 : 10 ≤ next.phase → 10 ≤ s.closer.phase ∨ s.s2 = .exited) :
    Phases { s with closer := next } :=
  { phases with
    idle := fun _ => idle
    shut1 := fun shut => (phases.shut1 shut).trans grows
    joined1 := fun late => (joined1 late).elim phases.joined1 id
    shut2 := fun shut => (phases.shut2 shut).trans grows
    joined2 := fun late => (joined2 late).elim phases.joined2 id }

theorem closer (phases : Phases s) (move : CloserMove s label s') : Phases s' := by
  have idle : ∀ {closer : Closer}, s.closer = closer → 0 < closer.phase → ∀ t, s.fg t = .idle :=
    fun position started => phases.idle (position ▸ started)
  cases move with
  | close position idle =>
    exact phases.advance .disarm (by simp [position, Closer.phase]) idle (by simp [Closer.phase])
      (by simp [Closer.phase])
  | @sweepLock err bucket p position alive free page enqueue chosen =>
    have phase : (Engine.sweepAfter err bucket p enqueue).phase = 3 := by cases enqueue <;> rfl
    exact { phases.advance (Engine.sweepAfter err bucket p enqueue)
      (by rw [position, phase]; rfl) (idle position (by simp [Closer.phase])) (by simp [phase])
      (by simp [phase]) with }
  | @partialPush err bucket p position | @fullPush err bucket p position =>
    have moved := phases.advance (.sweepUnlock err bucket p) (by simp [position, Closer.phase])
      (idle position (by simp [Closer.phase])) (by simp [Closer.phase]) (by simp [Closer.phase])
    -- A stage that has exited was shut down, which comes after the sweep.
    have early : s.closer.phase = 3 := by rw [position]; rfl
    refine { moved with exited1 := fun exited => ?_, exited2 := fun exited => ?_ }
    · have := phases.exited1_phase exited
      omega
    · have := phases.exited2_phase exited
      omega
  | join1 position gone =>
    exact phases.advance (.shutdown2 _) (by simp [position, Closer.phase])
      (idle position (by simp [Closer.phase])) (fun _ => .inr gone) (by simp [Closer.phase])
  | join2 position gone =>
    exact phases.advance (.lastCheck _) (by simp [position, Closer.phase])
      (idle position (by simp [Closer.phase])) (fun _ => .inl (by simp [position, Closer.phase]))
      (fun _ => .inr gone)
  | @shutdown1 err position =>
    have moved := phases.advance (.join1 err) (by simp [position, Closer.phase])
      (idle position (by simp [Closer.phase])) (by simp [Closer.phase]) (by simp [Closer.phase])
    refine { moved with shut1 := fun _ => by simp [Closer.phase], exited1 := fun exited => ?_ }
    exact ⟨rfl, (phases.exited1 exited).2⟩
  | @shutdown2 err position =>
    have moved := phases.advance (.join2 err) (by simp [position, Closer.phase])
      (idle position (by simp [Closer.phase])) (fun _ => .inl (by simp [position, Closer.phase]))
      (by simp [Closer.phase])
    refine { moved with shut2 := fun _ => by simp [Closer.phase], exited2 := fun exited => ?_ }
    exact ⟨rfl, (phases.exited2 exited).2⟩
  | disarm position | firstDrain position | sweepBucket position | sweepDone position
  | sweepFault position | partialInc position | fullInc position | fullEnter position
  | sweepUnlock position | sweepNextFault position | sweepNext position | secondDrain position
  | stopping position | lastCheck position | destroy position | closeFd position =>
    exact { phases.advance _ (by simp [position, Closer.phase]) (idle position (by simp [Closer.phase]))
      (fun late => .inl (by rw [position]; simp only [Closer.phase] at late ⊢; omega))
      (fun late => .inl (by rw [position]; simp only [Closer.phase] at late ⊢; omega)) with }

end Phases

/-! ## The walk over the index -/

/-- The chain `page_index_foreach` is walking. -/
def Closer.bucket : Closer → Option Nat
  | .sweep _ bucket _ | .sweepEnqueue _ bucket _ _ | .sweepUnlock _ bucket _
  | .sweepNext _ bucket _ => some bucket
  | _ => none

/-- The page `page_index_foreach` has reached. -/
def Closer.walked : Closer → Option PageId
  | .sweep _ _ cur => cur
  | .sweepEnqueue _ _ p _ | .sweepUnlock _ _ p | .sweepNext _ _ p => some p
  | _ => none

theorem Closer.bucket_of_running {closer : Closer} (running : closer.phase = 0) :
    closer.bucket = none := by
  cases closer <;> simp_all [phase, bucket]

/-- Nothing the walk has still to visit is queued. -/
structure Walk (s : Engine n) : Prop where
  later : ∀ b, s.closer.bucket = some b → ∀ b' > b, ∀ q ∈ s.buckets b', q ∉ s.custody.pipe
  ahead : ∀ b p q, s.closer.bucket = some b → s.closer.walked = some p →
    [p, q].Sublist (s.buckets b) → q ∉ s.custody.pipe
  hashed : ∀ b p, s.closer.bucket = some b → s.closer.walked = some p →
    p < s.created ∧ piHash (s.pages p).base = b
  current : ∀ err b p, s.closer = .sweep err b (some p) →
    p ∈ s.buckets b ∧ p ∉ s.custody.pipe

namespace Walk

variable {cfg : Config} {s s' : Engine n} {label : Label n}

theorem of_elsewhere (elsewhere : s.closer.bucket = none) : Walk s where
  later := by simp [elsewhere]
  ahead := by simp [elsewhere]
  hashed := by simp [elsewhere]
  current := fun err b p position => by simp [position, Closer.bucket] at elsewhere

/-- A background step that unlinks only queued pages and queues none. -/
theorem shrink (walk : Walk s) (closer : s'.closer = s.closer)
    (fewer : ∀ q ∈ s'.custody.pipe, q ∈ s.custody.pipe)
    (chains : ∀ b, (s'.buckets b).Sublist (s.buckets b))
    (keeps : ∀ b, ∀ q ∈ s.buckets b, q ∉ s.custody.pipe → q ∈ s'.buckets b)
    (created : s'.created = s.created)
    (bases : ∀ p < s.created, (s'.pages p).base = (s.pages p).base) : Walk s' where
  later := fun b bucket b' past q member queued =>
    walk.later b (closer ▸ bucket) b' past q ((chains b').subset member) (fewer q queued)
  ahead := fun b p q bucket walked follows queued =>
    walk.ahead b p q (closer ▸ bucket) (closer ▸ walked) (follows.trans (chains b)) (fewer q queued)
  hashed := fun b p bucket walked => by
    obtain ⟨old, hashed⟩ := walk.hashed b p (closer ▸ bucket) (closer ▸ walked)
    exact ⟨created ▸ old, by rw [bases p old, hashed]⟩
  current := fun err b p position => by
    obtain ⟨member, outside⟩ := walk.current err b p (closer ▸ position)
    exact ⟨keeps b p member outside, fun queued => outside (fewer p queued)⟩

theorem stage1 (walk : Walk s) (load : Load s) (move : Stage1Move cfg s label s') : Walk s' := by
  have calm := load.calm1
  have bases := base_stable (refines_stage1 load move)
  refine walk.shrink (by cases move <;> rfl) ?_ (fun b => by cases move <;> exact .refl _)
    (fun b q member _ => by cases move <;> exact member) (by cases move <;> rfl) bases
  intro q member
  cases move with
  | pop position queue =>
    simpa [Custody.pipe, Custody.waiting, Engine.custody, Stage1.pages, position, queue] using member
  | drop position =>
    simp only [Custody.pipe, Custody.waiting, Engine.custody, Stage1.pages, position,
      List.mem_append, List.nil_append] at member ⊢
    exact member.imp_right (Or.imp_right .inr)
  | busyPush position => simp [position, Stage1.deferred] at calm
  | exit position | inspectFull position | inspectBusy position | inspectHoles position
  | forwardEnter position | guardPass position | readStart position | readEnd position
  | readFailed position | fill position | dropDec position | fillEnter position
  | preadOk position | preadFail position | wake position | forwardPush position
  | fillPush position =>
    simpa [Custody.pipe, Custody.waiting, Engine.custody, Stage1.pages, position] using member

theorem stage2 (walk : Walk s) (load : Load s) (ready : Ready cfg s) (owned : s.custody.Ownership)
    (move : Stage2Move s label s') : Walk s' := by
  have bases := base_stable (refines_stage2 load ready owned move)
  have calm := load.calm2
  have settled := ready.settled
  have closer : s'.closer = s.closer := by cases move <;> rfl
  have created : s'.created = s.created := by cases move <;> rfl
  cases move with
  | @unlink done p todo position linked free =>
    have queued : p ∈ s.custody.pipe := Custody.mem_pipe_of_waiting (by
      simp [Custody.waiting, Engine.custody, position, Stage2.kept])
    refine walk.shrink closer ?_ (s.custody.unlinkAddr_sublist _ _) ?_ created bases
    · intro q member
      simpa [Custody.pipe, Custody.waiting, Engine.custody, position, Stage2.tagged,
        Stage2.unlinked, Stage2.kept] using member
    -- The page that is unlinked is queued, so the walk has lost no page it still needs.
    · intro b q member outside
      have differs : s.addr q ≠ s.addr p := fun same =>
        outside (owned.address q p (owned.indexed b q member).1 (owned.live p queued) same ▸ queued)
      by_cases same : b = piHash (s.pages p).base
      · subst same
        simpa using (List.mem_eraseP_of_neg (by simpa using differs)).mpr member
      · simpa [same] using member
  -- These branches are dead with one thread in each stage.
  | busyPush position => simp [position, Stage2.deferred] at calm
  | wake position => simp [position, Stage2.deferred] at calm
  | pushBack position => simp [position, Stage2.returning] at settled
  | checkNotReady position free notReady => simp [ready.ready_of_check position] at notReady
  | pop position queue | collectTake position _ queue =>
    refine walk.shrink closer ?_ (fun _ => .refl _) (fun _ _ member _ => member) created bases
    intro q member
    simpa [Custody.pipe, Custody.waiting, Engine.custody, position, queue, Stage2.tagged,
      Stage2.unlinked, Stage2.kept] using member
  | pwritev position fits after outcome =>
    refine walk.shrink closer ?_ (fun _ => .refl _) (fun _ _ member _ => member) created bases
    intro q member
    cases after <;> simpa [Custody.pipe, Custody.waiting, Engine.custody, position, afterPwritev,
      Stage2.tagged, Stage2.unlinked, Stage2.kept] using member
  | free position =>
    refine walk.shrink closer ?_ (fun _ => .refl _) (fun _ _ member _ => member) created bases
    intro q member
    simp only [Custody.pipe, Custody.waiting, Engine.custody, position, Stage2.tagged,
      Stage2.unlinked, Stage2.kept, List.mem_append, List.mem_cons] at member ⊢
    exact member.imp_left .inr
  | exit position | poppedBusy position | poppedGo position | collectStop position
  | checkReady position | detachDone position | unlinkSkip position | tag position
  | writeStart position | written position | latch position | freeDone position | leave position
  | decrement position =>
    refine walk.shrink closer ?_ (fun _ => .refl _) (fun _ _ member _ => member) created bases
    intro q member
    simpa [Custody.pipe, Custody.waiting, Engine.custody, position, Stage2.tagged,
      Stage2.unlinked, Stage2.kept, or_assoc] using member

/-- The walk starts a chain none of whose pages is queued. -/
theorem enter (owned : s.custody.Ownership) (err : Bool) (b : Nat)
    (unqueued : ∀ b' ≥ b, ∀ q ∈ s.buckets b', q ∉ s.custody.pipe) :
    Walk { s with closer := .sweep err b (s.buckets b).head? } where
  later := by
    rintro _ ⟨⟩ b' past q member
    exact unqueued b' (Nat.le_of_lt past) q member
  ahead := by
    rintro _ p q ⟨⟩ _ follows
    exact unqueued b le_rfl q (follows.subset (by simp))
  hashed := by
    rintro _ p ⟨⟩ walked
    obtain ⟨alive, hashed⟩ := owned.indexed b p (List.mem_of_mem_head? walked)
    exact ⟨alive.1, hashed⟩
  current := by
    intro err' b' p position
    obtain ⟨-, rfl, head⟩ := Closer.sweep.inj position
    have member := List.mem_of_mem_head? head
    exact ⟨member, unqueued b le_rfl p member⟩

/-- The walk stays on its page. -/
theorem stay (walk : Walk s) {closer : Closer} (bucket : closer.bucket = s.closer.bucket)
    (walked : closer.walked = s.closer.walked) (done : ∀ err b cur, closer ≠ .sweep err b cur) :
    Walk { s with closer := closer } where
  later := fun b at_ => walk.later b (bucket ▸ at_)
  ahead := fun b p q at_ on => walk.ahead b p q (bucket ▸ at_) (walked ▸ on)
  hashed := fun b p at_ on => walk.hashed b p (bucket ▸ at_) (walked ▸ on)
  current := fun err b _ position => absurd position (done err b _)

/-- The walk queues the page it is on. -/
theorem push (walk : Walk s) (owned : s.custody.Ownership) {closer : Closer} {b : Nat} {p : PageId}
    (bucket : s.closer.bucket = some b) (walked : s.closer.walked = some p)
    (sameBucket : closer.bucket = some b) (sameWalked : closer.walked = some p)
    (done : ∀ err b cur, closer ≠ .sweep err b cur) {q1 q2 : List PageId}
    (grown : ∀ q ∈ ({ s with closer := closer, q1 := q1, q2 := q2 } : Engine n).custody.pipe,
      q ∈ s.custody.pipe ∨ q = p) :
    Walk { s with closer := closer, q1 := q1, q2 := q2 } where
  later := by
    intro b' at_ b'' past q member queued
    obtain rfl : b = b' := Option.some.inj (sameBucket.symm.trans at_)
    rcases grown q queued with queued | rfl
    · exact walk.later b bucket b'' past q member queued
    · have here := (walk.hashed b q bucket walked).2
      have there : piHash (s.pages q).base = b'' := (owned.indexed b'' q member).2
      omega
  ahead := by
    intro b' p' q at_ on follows queued
    obtain rfl : b = b' := Option.some.inj (sameBucket.symm.trans at_)
    obtain rfl : p = p' := Option.some.inj (sameWalked.symm.trans on)
    rcases grown q queued with queued | rfl
    · exact walk.ahead b p q bucket walked follows queued
    · have nodup := (owned.chain b).sublist follows
      simp at nodup
  hashed := by
    intro b' p' at_ on
    obtain rfl : b = b' := Option.some.inj (sameBucket.symm.trans at_)
    obtain rfl : p = p' := Option.some.inj (sameWalked.symm.trans on)
    exact walk.hashed b p bucket walked
  current := fun err b p position => absurd position (done err b _)

/-- The walk moves on along its chain. -/
theorem next (walk : Walk s) (owned : s.custody.Ownership) {err : Bool} {b : Nat} {p : PageId}
    (position : s.closer = .sweepNext err b p) :
    Walk { s with closer := .sweep err b (s.nextLink b p) } := by
  have bucket : s.closer.bucket = some b := by rw [position]; rfl
  have walked : s.closer.walked = some p := by rw [position]; rfl
  have link : ∀ {q}, s.nextLink b p = some q →
      q ∈ s.buckets b ∧ q ∉ s.custody.pipe ∧
        ∀ r, [q, r].Sublist (s.buckets b) → r ∉ s.custody.pipe := by
    intro q link
    obtain ⟨before, after, chain⟩ := Library.Lists.exists_of_next link
    have nodup : (s.buckets b).Nodup := owned.chain b
    have follows : ∀ r, [p, r].Sublist (s.buckets b) → r ∉ s.custody.pipe := fun r =>
      walk.ahead b p r bucket walked
    rw [chain] at nodup follows ⊢
    have split : ((before ++ [p]) ++ q :: after).Nodup := by simpa using nodup
    have absent : q ∉ before ++ [p] := fun member =>
      List.disjoint_of_nodup_append split member (by simp)
    refine ⟨by simp, follows q ?_, fun r beyond => follows r ?_⟩
    · exact List.sublist_append_of_sublist_right (by simp)
    · have member : r ∈ after := Library.Lists.mem_after absent (by simpa using beyond)
      exact List.sublist_append_of_sublist_right (by simp [member])
  exact
    { later := by
        rintro _ ⟨⟩
        exact walk.later b bucket
      ahead := by
        rintro _ q r ⟨⟩ on follows
        exact (link on).2.2 r follows
      hashed := by
        rintro _ q ⟨⟩ on
        obtain ⟨alive, hashed⟩ := owned.indexed b q (link on).1
        exact ⟨alive.1, hashed⟩
      current := by
        intro err' b' q position
        obtain ⟨-, rfl, on⟩ := Closer.sweep.inj position
        exact ⟨(link on).1, (link on).2.1⟩ }

theorem pipe_nil_of_drained (pending : Pending s) (drained : s.pending = 0) :
    s.custody.pipe = [] := by
  have nothing : s.outstanding = 0 := pending.symm.trans drained
  simp only [Engine.outstanding, Stage2.pages, List.length_append, Nat.add_eq_zero_iff,
    List.length_eq_zero_iff] at nothing
  simp [Custody.pipe, Custody.waiting, Engine.custody, nothing]

theorem closer (walk : Walk s) (owned : s.custody.Ownership) (pending : Pending s)
    (move : CloserMove s label s') : Walk s' := by
  cases move with
  | close | disarm | sweepDone | sweepFault | sweepNextFault | secondDrain | stopping | shutdown1
  | join1 | shutdown2 | join2 | lastCheck | destroy | closeFd => exact of_elsewhere rfl
  | firstDrain position drained =>
    have empty := pipe_nil_of_drained pending drained
    exact enter owned s.ioErr 0 fun _ _ q _ => by simp [empty]
  | @sweepBucket err bucket position more =>
    refine enter owned err (bucket + 1) fun b' past => walk.later bucket ?_ b' past
    rw [position]
    rfl
  | @sweepLock err bucket p position alive free page enqueue chosen =>
    have same : page.base = (s.pages p).base := by
      rw [show page = (Engine.enqueueOne (s.pages p)).1 from congrArg Prod.fst chosen]
      simp only [Engine.enqueueOne, enqueueFull, enqueuePartial]
      split <;> split <;> rfl
    have stayed : Walk { s with closer := Engine.sweepAfter err bucket p enqueue } :=
      walk.stay (by rw [position]; cases enqueue <;> rfl) (by rw [position]; cases enqueue <;> rfl)
        (by cases enqueue <;> simp [Engine.sweepAfter])
    refine { stayed with hashed := fun b q at_ on => ?_ }
    obtain ⟨old, hashed⟩ := stayed.hashed b q at_ on
    refine ⟨old, ?_⟩
    by_cases isP : q = p
    · subst isP; simpa [same] using hashed
    · simpa [isP] using hashed
  | partialInc position | fullInc position | fullEnter position | sweepUnlock position =>
    exact { walk.stay (by rw [position]; rfl) (by rw [position]; rfl) (by simp) with }
  | partialPush position | fullPush position =>
    refine { walk.push owned (by rw [position]; rfl) (by rw [position]; rfl) rfl rfl (by simp)
      fun q member => ?_ with }
    simp only [Custody.pipe, Custody.waiting, Engine.custody, List.mem_append,
      List.mem_singleton] at member ⊢
    grind
  | sweepNext position => exact walk.next owned position

end Walk

theorem swept_of {s : Engine n} (walk : Walk s) (phases : Phases s) : Swept s where
  current := walk.current
  drained := by
    intro err position
    have late : s.closer.phase = 11 := by rw [position]; rfl
    have idle := phases.idle (by omega)
    have first := phases.joined1 (by omega)
    have second := phases.joined2 (by omega)
    refine ⟨fun o => ?_, ?_⟩
    · cases o with
      | fg t => simp [Engine.custody, idle t, Fg.role]
      | closer => simp [Engine.custody, position, Closer.role]
    · simp [Custody.pipe, Custody.waiting, Engine.custody, first, second, Stage2.tagged,
        Stage2.unlinked, Stage2.kept, Stage1.pages, (phases.exited1 first).2,
        (phases.exited2 second).2]

end NoxDB

import NoxDB.Engine.Backpressure
import NoxDB.Engine.Generations

/-! # No page is orphaned

A live page must be within somebody's reach: in the index, in a queue, or in the hands of
a stage or a writer.  A page that leaves the index early is a sealed one, and a sealed page
is queued until Stage-1 has filled its holes.  That fails in two ways, excluded step by
step: Stage-1 drops a sealed page whose holes it could not read, and a writer detaches a
page that took the address of the one it found sealed.
-/

namespace NoxDB

open Function (update)
open Library.Runs

variable {n : Nat}

/-- The page that the thread found sealed, or sealed, and still holds the lock of. -/
def Fg.retrying : Fg → Option PageId
  | .scrap _ _ (.enqueue p _ .retry) => some p
  | .scrap _ _ (.unlock p .retry) => some p
  | _ => none

/-- The base of the chunk that the thread is writing. -/
def Fg.chunkBase : Fg → Nat
  | .scrap call done _ => call.base done
  | _ => 0

/-- Stage-1 does not drop a sealed page. -/
def DropsUnsealed (s : Engine n) : Label n → Prop
  | .stage1 => ∀ p ∈ s.s1.dropping, (s.pages p).hdr.tag ≠ .sealed
  | _ => True

/-- A writer that calls `page_index_detach_if` unlinks no page but the one it found sealed. -/
def DetachesOwn (s : Engine n) : Label n → Prop
  | .fg t => ∀ p ∈ (s.fg t).detaching, ∀ q ∈ s.detachTarget (s.fg t).chunkBase (s.addr p), q = p
  | _ => True

instance (s : Engine n) (label : Label n) : Decidable (DropsUnsealed s label) :=
  match label with
  | .stage1 => inferInstanceAs (Decidable (∀ p ∈ s.s1.dropping, (s.pages p).hdr.tag ≠ .sealed))
  | .call _ _ | .fg _ | .alloc _ _ _ | .oom _ | .pwrite _ _ | .pread _ | .stage2 | .pwritev _
  | .close | .closer | .closeFd _ => inferInstanceAs (Decidable True)

instance (s : Engine n) (label : Label n) : Decidable (DetachesOwn s label) :=
  match label with
  | .fg t =>
    inferInstanceAs (Decidable (∀ p ∈ (s.fg t).detaching,
      ∀ q ∈ s.detachTarget (s.fg t).chunkBase (s.addr p), q = p))
  | .call _ _ | .alloc _ _ _ | .oom _ | .pwrite _ _ | .stage1 | .pread _ | .stage2 | .pwritev _
  | .close | .closer | .closeFd _ => inferInstanceAs (Decidable True)

/-- Page `p` is in the index, in a queue, or held by a stage or by a writer. -/
def Accounted (s : Engine n) (p : PageId) : Prop :=
  (∃ b, p ∈ s.buckets b) ∨ p ∈ s.q1 ++ s.q2 ∨ p ∈ s.s1.pages ∨ p ∈ s.s2.pages ∨
    ∃ t, Grasps s t p

variable {cfg : Config} {file : File} {scratch : Nat → UInt8} {s s' : Engine n} {label : Label n}

/-! ## Sealed pages -/

theorem Decided.sealed_of_retry {page : ScrapPage Cell} {created : Bool} {cells : Nat → Cell}
    {intra len : Nat} {decision : Decision}
    (way : Decided cfg page created cells intra len decision) (retry : decision.after = .retry) :
    decision.page.hdr.tag = .sealed := by
  cases way with
  | seen tag => exact tag
  | overflow | overflowPush => rfl
  | full | fullPush | partialPush | stay => simp at retry

/-- A page that is sealed after the critical section is queued or about to be. -/
theorem Decided.queued_of_sealed {page : ScrapPage Cell} {created : Bool} {cells : Nat → Cell}
    {intra len : Nat} {decision : Decision}
    (way : Decided cfg page created cells intra len decision)
    (before : page.hdr.tag = .sealed → page.inQueue = true)
    (after : decision.page.hdr.tag = .sealed) : decision.page.inQueue = true := by
  cases way with
  | seen tag => exact before tag
  | overflow _ _ queued => exact queued
  | overflowPush => rfl
  | full | fullPush => simp [ScrapPage.retag] at after
  | partialPush tag accepted => exact absurd (by simpa [(scrapPageMerge_ok accepted).2] using after) tag
  | stay tag accepted => exact absurd (by simpa [(scrapPageMerge_ok accepted).2] using after) tag

/-- A critical section that gives a page up decided to retry on it. -/
theorem Decision.retry_of_giving_up {decision : Decision} {p q : PageId} {call : Call} {done : Nat}
    (holds : (Fg.scrap call done (decision.next q)).retrying = some p ∨
      (Fg.scrap call done (decision.next q)).detaching = some p) :
    decision.after = .retry ∧ q = p := by
  obtain ⟨page, enqueue, after, merged, sealedNow⟩ := decision
  cases after with
  | ret => cases enqueue <;> simp [Decision.next, Fg.retrying, Fg.detaching] at holds
  | retry => cases enqueue <;> simpa [Decision.next, Fg.retrying, Fg.detaching] using holds

/-- Where a thread that is going to detach a page comes from. -/
theorem detaching_cases (move : Move cfg s label s') {t : Fin n} {p : PageId}
    (after : (s'.fg t).detaching = some p) :
    (s.fg t).detaching = some p ∨ (s.fg t).retrying = some p := by
  by_cases mine : label.thread = some t
  · cases own_move move mine with
    | callZero => exact .inl after
    | @decide t' call done q created position decision =>
      obtain rfl := Option.some.inj mine
      rw [Decision.next] at after
      split at after <;> simp [Fg.detaching] at after
    | unlockRetry position =>
      obtain rfl := Option.some.inj mine
      simp only [Function.update_self, Fg.detaching] at after
      exact .inr (by rw [position]; exact after)
    | callDirect | callScrap | gatePass | gatePark | parkedPass | lookupFound | alloc | oomPage
    | oomDirect | lockPage | partialInc | partialPush | fullInc | fullEnter | fullPush
    | unlockMore | unlockDone | detach | pwrite =>
      obtain rfl := Option.some.inj mine
      simp [Fg.detaching] at after
  · rw [fg_frame move mine] at after
    exact .inl after

/-- Where a thread that is going to retry comes from. -/
theorem retrying_cases (move : Move cfg s label s') {t : Fin n} {p : PageId}
    (after : (s'.fg t).retrying = some p) :
    (s.fg t).retrying = some p ∨ (s'.pages p).hdr.tag = .sealed := by
  by_cases mine : label.thread = some t
  · cases own_move move mine with
    | callZero => exact .inl after
    | @decide t' call done q created position decision decided =>
      obtain rfl := Option.some.inj mine
      have way := Decided.of_eq decided
      simp only [Function.update_self] at after
      obtain ⟨retry, rfl⟩ := Decision.retry_of_giving_up (.inl after)
      exact .inr (by simpa using way.sealed_of_retry retry)
    | @partialInc t' call done q outcome position | @partialPush t' call done q outcome position
    | @fullInc t' call done q outcome position | @fullEnter t' call done q outcome position
    | @fullPush t' call done q outcome position =>
      obtain rfl := Option.some.inj mine
      left
      rw [position]
      cases outcome with
      | ret => simp [Fg.retrying] at after
      | retry => simpa [Fg.retrying] using after
    | callDirect | callScrap | gatePass | gatePark | parkedPass | lookupFound | alloc | oomPage
    | oomDirect | lockPage | unlockMore | unlockDone | unlockRetry | detach | pwrite =>
      obtain rfl := Option.some.inj mine
      simp [Fg.retrying] at after
  · rw [fg_frame move mine] at after
    exact .inl after

/-- What is past Stage-1 stays past Stage-1 until it is freed. -/
theorem outgoing_step (move : Move cfg s label s') {p : PageId} (member : p ∈ s.outgoing) :
    p ∈ s'.outgoing ∨ s'.freed p = true := by
  simp only [Engine.outgoing, Stage2.pages, List.mem_append] at member ⊢
  cases move with
  | fg move => cases move <;> grind
  | closer move => cases move <;> grind
  | stage1 move =>
    cases move with
    | forwardPush position | fillPush position =>
      simp only [position, Stage1.entering, List.mem_singleton, List.not_mem_nil] at member ⊢
      grind
    | pop position | exit position | inspectFull position | inspectBusy position
    | inspectHoles position | forwardEnter position | busyPush position | wake position
    | guardPass position | readStart position | readEnd position | readFailed position
    | fill position | drop position | dropDec position | fillEnter position | preadOk position
    | preadFail position =>
      simp only [position, Stage1.entering, List.mem_singleton, List.not_mem_nil] at member ⊢
      grind
  | stage2 move =>
    cases move with
    | pop position queue | collectTake position _ queue =>
      simp only [position, queue, Stage2.tagged, Stage2.unlinked, Stage2.kept, Option.toList_none,
        List.mem_cons, List.mem_append, List.not_mem_nil] at member ⊢
      grind
    | pwritev position fits after outcome =>
      rw [position] at member
      cases after <;> exact .inl member
    | @free q batch position =>
      by_cases same : p = q
      · exact .inr (by simp [same])
      · left
        simpa [position, Stage2.tagged, Stage2.unlinked, Stage2.kept, same] using member
    | exit position | poppedBusy position | poppedGo position | busyPush position | wake position
    | collectStop position | checkReady position | checkNotReady position | pushBack position
    | detachDone position | unlinkSkip position | unlink position | tag position
    | writeStart position | written position | latch position | freeDone position
    | leave position | decrement position =>
      simp only [position, Stage2.tagged, Stage2.unlinked, Stage2.kept, Option.toList_none,
        Option.toList_some, List.mem_cons, List.mem_append, List.not_mem_nil] at member ⊢
      grind

theorem Fg.held_of_retrying {f : Fg} {p : PageId} (retrying : f.retrying = some p) :
    f.role.held = some p := by
  unfold Fg.retrying at retrying
  split at retrying
  · exact retrying
  · exact retrying
  · simp at retrying

theorem Fg.points_of_detaching {f : Fg} {p : PageId} (detaching : f.detaching = some p) :
    f.role = .points p := by
  unfold Fg.detaching at detaching
  split at detaching
  · exact congrArg Role.points (Option.some.inj detaching)
  · simp at detaching

/-- A created page is linked. -/
theorem linked_of_born (move : Move cfg s label s') {p : PageId} (new : ¬ p < s.created)
    (current : p < s'.created) : p ∈ s'.buckets (piHash (s'.pages p).base) := by
  cases move with
  | fg move =>
    cases move with
    | @alloc t call done address zone =>
      obtain rfl : p = s.created := Nat.le_antisymm (Nat.lt_succ_iff.mp current) (Nat.not_lt.mp new)
      simp [scrapPageAlloc]
    | _ => exact absurd current new
  | stage1 move => cases move <;> exact absurd current new
  | stage2 move => cases move <;> exact absurd current new
  | closer move => cases move <;> exact absurd current new

/-- A page leaves the index through a writer's call of `page_index_detach_if`, through Stage-2, or
with the index. -/
theorem unlinked_cases (sound : Sound cfg s) (move : Move cfg s label s') {p : PageId} {b : Nat}
    (linked : p ∈ s.buckets b) :
    p ∈ s'.buckets b ∨
      (∃ t call done q, label = .fg t ∧ s.fg t = .scrap call done (.detach q) ∧
        p ∈ s.detachTarget (call.base done) (s.addr q)) ∨
      s'.s2.unlinked = some p ∨ s'.freed p = true := by
  have alive := (sound.owned.indexed b p linked).1
  cases move with
  | fg move =>
    cases move with
    | alloc =>
      left
      exact Library.Lists.mem_update_cons.mpr (.inr linked)
    | @detach t call done q position free =>
      by_cases same : b = piHash (call.base done)
      · subst same
        by_cases address : s.addr p = s.addr q
        · -- The first page at that address is the only live one.
          right; left
          refine ⟨t, call, done, q, rfl, position, ?_⟩
          cases target : s.detachTarget (call.base done) (s.addr q) with
          | none =>
            have missing := List.find?_eq_none.mp target p linked
            simp [address] at missing
          | some r =>
            have found := List.mem_of_find?_eq_some target
            have hit : s.addr r = s.addr q := by simpa using List.find?_some target
            obtain rfl := sound.owned.address r p (sound.owned.indexed _ r found).1 alive
              (hit.trans address.symm)
            rfl
        · left
          simpa using (List.mem_eraseP_of_neg (by simpa using address)).mpr linked
      · exact .inl (by simpa [same] using linked)
    | _ => exact .inl linked
  | stage1 move => cases move <;> exact .inl linked
  | stage2 move =>
    cases move with
    | @unlink done q todo position detached free =>
      by_cases same : b = piHash (s.pages q).base
      · subst same
        by_cases address : s.addr p = s.addr q
        · right; right; left
          have queued : q ∈ s.custody.pipe := Custody.mem_pipe_of_waiting (by
            simp [Custody.waiting, Engine.custody, position, Stage2.kept])
          obtain rfl := sound.owned.address p q alive (sound.owned.live q queued) address
          rfl
        · left
          simpa using (List.mem_eraseP_of_neg (by simpa using address)).mpr linked
      · exact .inl (by simpa [same] using linked)
    | _ => exact .inl linked
  | closer move =>
    cases move with
    | destroy =>
      have among : p ∈ s.resident := (mem_resident sound.owned).mpr ⟨b, linked⟩
      exact .inr (.inr (.inr (by simp [among])))
    | _ => exact .inl linked

/-- A sealed page is queued, the thread that is going to detach a page saw it sealed, and a live
page that is neither sealed nor past Stage-1 is in the index. -/
structure Kept (s : Engine n) : Prop where
  queued : ∀ p, (s.pages p).hdr.tag = .sealed → (s.pages p).inQueue = true
  sweeping : ∀ p e, s.closer.role = .pushing p e → (s.pages p).hdr.tag ≠ .sealed
  retrying : ∀ t p, (s.fg t).retrying = some p → (s.pages p).hdr.tag = .sealed
  detaching : ∀ t p, (s.fg t).detaching = some p →
    (s.pages p).hdr.tag = .sealed ∨ p ∈ s.outgoing ∨ s.freed p = true
  indexed : ∀ p, s.custody.Alive p → p ∉ s.outgoing → (s.pages p).hdr.tag ≠ .sealed →
    p ∈ s.buckets (piHash (s.pages p).base)

namespace Kept

theorem openAt (cfg : Config) (file : File) (scratch : Nat → UInt8) (live : Nat) :
    Kept (Engine.openAt n cfg file scratch live) where
  queued := by simp [Engine.openAt, Engine.init, scrapPageAlloc]
  sweeping := by simp [Engine.openAt, Engine.init, Closer.role]
  retrying := by simp [Engine.openAt, Engine.init, Fg.retrying]
  detaching := by simp [Engine.openAt, Engine.init, Fg.detaching]
  indexed := fun p alive => by simp [Custody.Alive, Engine.custody, Engine.openAt, Engine.init] at alive

variable (kept : Kept s) (sound : Sound cfg s) (move : Move cfg s label s')
include kept sound move

omit move in
theorem unsealed_of_swept {err : Bool} {bucket : Nat} {p : PageId}
    (position : s.closer = .sweep err bucket (some p)) (free : s.lock p = none) :
    (s.pages p).inQueue = false ∧ (s.pages p).hdr.tag ≠ .sealed := by
  have outside := ((swept_of sound.walk sound.phases).current err bucket p position).2
  have idle := idle_of_unqueued sound.owned outside free
  exact ⟨idle, fun sealed => by simp [kept.queued p sealed] at idle⟩

/-- A sealed page stays sealed until Stage-1 has filled it, which takes its lock. -/
theorem sealed_stays {p : PageId} (old : p < s.created) (sealed : (s.pages p).hdr.tag = .sealed) :
    (s'.pages p).hdr.tag = .sealed ∨ p ∈ s'.outgoing ∧ s.lock p = none := by
  cases touch move p with
  | same tag | drop _ _ _ tag => exact .inl (tag.trans sealed)
  | born new => exact absurd new (Nat.ne_of_lt old)
  | decide position way page =>
    left
    rw [page]
    cases way with
    | seen => exact sealed
    | overflow tag | overflowPush tag | full tag | fullPush tag | partialPush tag | stay tag =>
      exact absurd sealed tag
  | fill free _ _ entering => exact .inr ⟨List.mem_append_right _ entering, free⟩
  | tag free _ _ tagged => exact .inr ⟨by simp [Engine.outgoing, Stage2.pages, tagged], free⟩
  | sweep free position => exact absurd sealed (kept.unsealed_of_swept sound position free).2

theorem queued_step (drops : DropsUnsealed s label) {p : PageId}
    (sealed : (s'.pages p).hdr.tag = .sealed) : (s'.pages p).inQueue = true := by
  cases touch move p with
  | same tag flag => exact flag.trans (kept.queued p (tag.symm.trans sealed))
  | born _ tag | fill _ tag | tag _ tag => simp [tag] at sealed
  | decide position way page =>
    rw [page] at sealed ⊢
    exact way.queued_of_sealed (kept.queued p) sealed
  | drop _ stage dropping tag =>
    subst stage
    exact absurd (tag.symm.trans sealed) (drops p dropping)
  | sweep free position page =>
    have idle := (kept.unsealed_of_swept sound position free).1
    rw [page, enqueueOne_idle idle]
    split <;> rfl

theorem retrying_step {t : Fin n} {p : PageId} (after : (s'.fg t).retrying = some p) :
    (s'.pages p).hdr.tag = .sealed := by
  rcases retrying_cases move after with before | sealed
  · -- The thread still holds the lock, so nobody fills or flushes the page.
    have held : (s.custody.role (.fg t)).held = some p := Fg.held_of_retrying before
    have locked := (sound.owned.locked p (.fg t)).mpr held
    rcases kept.sealed_stays sound move (sound.owned.alive_of_held held).1.1
      (kept.retrying t p before) with stays | ⟨-, free⟩
    · exact stays
    · exact absurd (locked.symm.trans free) (by simp)
  · exact sealed

theorem detaching_step {t : Fin n} {p : PageId} (after : (s'.fg t).detaching = some p) :
    (s'.pages p).hdr.tag = .sealed ∨ p ∈ s'.outgoing ∨ s'.freed p = true := by
  have before : p < s.created ∧
      ((s.pages p).hdr.tag = .sealed ∨ p ∈ s.outgoing ∨ s.freed p = true) := by
    rcases detaching_cases move after with before | before
    · refine ⟨?_, kept.detaching t p before⟩
      have rights := sound.owned.rights (.fg t)
      rwa [show s.custody.role (.fg t) = .points p from Fg.points_of_detaching before] at rights
    · have held : (s.custody.role (.fg t)).held = some p := Fg.held_of_retrying before
      exact ⟨(sound.owned.alive_of_held held).1.1, .inl (kept.retrying t p before)⟩
  obtain ⟨old, sealed | gone | freed⟩ := before
  · exact (kept.sealed_stays sound move old sealed).imp_right fun gone => .inl gone.1
  · exact .inr (outgoing_step move gone)
  · exact .inr (.inr (freed_mono sound move freed))

theorem sweeping_step {p : PageId} {e : Enqueue} (after : s'.closer.role = .pushing p e) :
    (s'.pages p).hdr.tag ≠ .sealed := by
  by_cases before : ∃ e, s.closer.role = .pushing p e
  · -- `nox_close` holds the lock of the page it pushes.
    obtain ⟨e, before⟩ := before
    have held : (s.custody.role .closer).held = some p := by
      rw [show s.custody.role .closer = _ from before]
      rfl
    have locked := (sound.owned.locked p .closer).mpr held
    have unsealed := kept.sweeping p e before
    cases touch move p with
    | same tag => rwa [tag]
    | born new => exact absurd new (Nat.ne_of_lt (sound.owned.alive_of_held held).1.1)
    | @decide t call done created decision position =>
      have mine : (s.custody.role (.fg t)).held = some p := by
        rw [show s.custody.role (.fg t) = _ from role_at position]
        rfl
      exact absurd (sound.owned.same_holder held mine) (by simp)
    | fill free | drop free | tag free | sweep free =>
      exact absurd (locked.symm.trans free) (by simp)
  · cases move with
    | fg move => exact absurd ⟨e, by cases move <;> exact after⟩ before
    | stage1 move => exact absurd ⟨e, by cases move <;> exact after⟩ before
    | stage2 move => exact absurd ⟨e, by cases move <;> exact after⟩ before
    | closer move =>
      cases move with
      | @sweepLock err bucket q position alive free page enqueue chosen =>
        obtain ⟨idle, unsealed⟩ := kept.unsealed_of_swept sound position free
        rw [enqueueOne_idle idle] at chosen
        split at chosen
        · obtain ⟨rfl, rfl⟩ := Prod.mk.inj chosen
          obtain ⟨rfl, -⟩ := Role.pushing.inj after
          simp [ScrapPage.retag]
        · obtain ⟨rfl, rfl⟩ := Prod.mk.inj chosen
          obtain ⟨rfl, -⟩ := Role.pushing.inj after
          simpa using unsealed
      | partialInc position | fullInc position | fullEnter position =>
        obtain ⟨rfl, -⟩ := Role.pushing.inj after
        exact absurd ⟨_, by rw [position]; rfl⟩ before
      | _ => simp [Closer.role] at after

theorem indexed_step (own : DetachesOwn s label) {p : PageId} (alive : s'.custody.Alive p)
    (inside : p ∉ s'.outgoing) (unsealed : (s'.pages p).hdr.tag ≠ .sealed) :
    p ∈ s'.buckets (piHash (s'.pages p).base) := by
  by_cases old : p < s.created
  · have survives : s'.freed p ≠ true := by
      rw [show s'.freed p = false from alive.2]
      simp
    have before : s.custody.Alive p := ⟨old, Bool.eq_false_iff.mpr fun freed =>
      survives (freed_mono sound move freed)⟩
    have notGone : p ∉ s.outgoing := fun member =>
      (outgoing_step move member).elim inside survives
    have notSealed : (s.pages p).hdr.tag ≠ .sealed := fun sealed =>
      (kept.sealed_stays sound move old sealed).elim unsealed fun gone => inside gone.1
    rw [base_stable (sound.refines move) p old]
    rcases unlinked_cases sound move (kept.indexed p before notGone notSealed) with
      stays | ⟨t, call, done, q, rfl, position, target⟩ | gone | freed
    · exact stays
    · -- The writer unlinked the page it found sealed.
      have mine : p = q := by
        have own := own q (by rw [position]; rfl) p
        rw [position] at own
        exact own target
      subst mine
      rcases kept.detaching t p (by rw [position]; rfl) with sealed | gone | freed
      · exact absurd sealed notSealed
      · exact absurd gone notGone
      · exact absurd (freed_mono sound move freed) survives
    · exact absurd (by simp [Engine.outgoing, Stage2.pages, gone]) inside
    · exact absurd freed survives
  · exact linked_of_born move old alive.1

theorem step (drops : DropsUnsealed s label) (own : DetachesOwn s label) : Kept s' where
  queued := fun _ sealed => kept.queued_step sound move drops sealed
  sweeping := fun _ _ after => kept.sweeping_step sound move after
  retrying := fun _ _ after => kept.retrying_step sound move after
  detaching := fun _ _ after => kept.detaching_step sound move after
  indexed := fun _ alive inside unsealed => kept.indexed_step sound move own alive inside unsealed

omit move in
/-- A live page is within reach. -/
theorem accounted {p : PageId} (alive : s.custody.Alive p) : Accounted s p := by
  by_cases gone : p ∈ s.outgoing
  · have entering : p ∈ s.s1.entering → p ∈ s.s1.pages := by
      cases s.s1 <;> simp [Stage1.entering, Stage1.pages]
    simp only [Engine.outgoing, List.mem_append] at gone
    simp only [Accounted, List.mem_append]
    grind
  · by_cases sealed : (s.pages p).hdr.tag = .sealed
    · rcases (sound.owned.queued p).mp (kept.queued p sealed) with waits | ⟨o, e, pushes⟩
      · simp only [Custody.waiting, Engine.custody, List.mem_append, Option.mem_toList] at waits
        simp only [Accounted, Stage2.pages, List.mem_append, Option.mem_toList]
        grind
      · cases o with
        | closer => exact absurd sealed (kept.sweeping p e pushes)
        | fg t =>
          right; right; right; right
          refine ⟨t, ?_⟩
          have pushes : (s.fg t).role = .pushing p e := pushes
          cases position : s.fg t with
          | scrap call done pc =>
            cases pc with
            | enqueue q e' after =>
              obtain ⟨rfl, -⟩ : q = p ∧ e' = e := by
                simpa [position, Fg.role, ChunkPc.role] using pushes
              exact ⟨call, done, _, position, rfl⟩
            | _ => simp [position, Fg.role, ChunkPc.role] at pushes
          | _ => simp [position, Fg.role] at pushes
    · exact .inl ⟨_, kept.indexed p alive gone sealed⟩

end Kept

/-! ## Along a run -/

/-- Nothing is left of the index after `page_index_destroy`. -/
def Emptied (s : Engine n) : Prop := 12 ≤ s.closer.phase → ∀ b, s.buckets b = []

theorem Emptied.step (emptied : Emptied s) (sound : Sound cfg s) (move : Move cfg s label s') :
    Emptied s' := by
  intro late
  cases move with
  | fg move =>
    have early := sound.phases.running move
    have same : s'.closer = s.closer := by cases move <;> rfl
    rw [same] at late
    omega
  | stage1 move =>
    have exited : s.s1 = .exited := sound.phases.joined1 (by
      have same : s'.closer = s.closer := by cases move <;> rfl
      rw [same] at late
      omega)
    cases move <;> simp_all
  | stage2 move =>
    have exited : s.s2 = .exited := sound.phases.joined2 (by
      have same : s'.closer = s.closer := by cases move <;> rfl
      rw [same] at late
      omega)
    cases move <;> simp_all
  | closer move =>
    cases move with
    | destroy => exact fun _ => rfl
    | closeFd position => exact emptied (by rw [position]; exact le_rfl)
    | @sweepLock err bucket p position alive free page enqueue chosen =>
      cases enqueue <;> simp [Engine.sweepAfter, Closer.phase] at late
    | _ => simp [Closer.phase] at late

/-- In a run in which Stage-1 drops no sealed page and no writer detaches a page it did not find
sealed: every page that was allocated and not freed is in the index, in a queue, or held by a
stage or a writer, and once `nox_close` has returned every page has been freed exactly once and
the level is back to what it was before `nox_open`. -/
theorem no_orphan {before : Nat}
    (run : Run (Engine.step cfg) (fun s label => DropsUnsealed s label ∧ DetachesOwn s label)
      (Engine.openAt n cfg file scratch before) s) :
    (∀ p < s.created, s.freed p = false → Accounted s p) ∧
    (∀ err, s.closer = .returned err →
      (∀ p < s.created, s.freed p = true) ∧ s.frees.Nodup ∧ (∀ p, p ∈ s.frees ↔ p < s.created) ∧
        s.watermark.live = before) := by
  have all : Sound cfg s ∧ Level before s ∧ FreeLog s ∧ Kept s ∧ Emptied s := by
    apply run.invariant fun s => Sound cfg s ∧ Level before s ∧ FreeLog s ∧ Kept s ∧ Emptied s
    · refine ⟨.openAt cfg file scratch before, .openAt cfg file scratch before,
        ⟨List.nodup_nil, ?_⟩, .openAt cfg file scratch before, fun _ _ => rfl⟩
      simp [Engine.frees, Engine.openAt, Engine.init]
    · rintro middle last label ⟨sound, level, frees, kept, emptied⟩ ⟨drops, own⟩ stepped
      have move := move_of_step stepped
      exact ⟨sound.move move, level.step sound move, frees.step sound move,
        kept.step sound move drops own, emptied.step sound move⟩
  obtain ⟨sound, level, frees, kept, emptied⟩ := all
  refine ⟨fun p current alive => kept.accounted sound ⟨current, alive⟩, fun err position => ?_⟩
  have late : s.closer.phase = 13 := by rw [position]; rfl
  have idle := sound.phases.idle (by omega)
  have first := sound.phases.joined1 (by omega)
  have second := sound.phases.joined2 (by omega)
  have dead : ∀ p < s.created, s.freed p = true := by
    intro p current
    by_contra alive
    have alive : s.custody.Alive p := ⟨current, Bool.eq_false_iff.mpr alive⟩
    rcases kept.accounted sound alive with ⟨b, linked⟩ | queued | hand | batch | ⟨t, call, done, pc, at_, -⟩
    · simp [emptied (by omega) b] at linked
    · simp [(sound.phases.exited1 first).2, (sound.phases.exited2 second).2] at queued
    · simp [first, Stage1.pages] at hand
    · simp [second, Stage2.pages, Stage2.tagged, Stage2.unlinked, Stage2.kept] at batch
    · simp [idle t] at at_
  refine ⟨dead, frees.nodup, fun p => ?_, ?_⟩
  · rw [frees.freed p]
    exact ⟨sound.owned.unborn p, dead p⟩
  · have nothing : s.alive = [] := by
      refine List.eq_nil_iff_forall_not_mem.mpr fun p member => ?_
      obtain ⟨current, alive⟩ := mem_alive.mp member
      simp [show s.custody.freed p = true from dead p current] at alive
    rw [level, nothing]
    rfl

/-- The page of the small run is dropped and stays in the index. -/
theorem no_orphan_of_dropped :
    ∃ s : Engine 1, Run (Engine.step .standard)
        (fun s label => DropsUnsealed s label ∧ DetachesOwn s label)
        (Engine.openAt 1 .standard emptyFile (fun _ => 0) 0) s ∧
      s.freed 0 = false ∧ (s.pages 0).inQueue = false ∧ Accounted s 0 := by
  obtain ⟨s, run, created, alive, idle⟩ :=
    exists_run .standard emptyFile (fun _ => 0)
      (fun (s : Engine 1) label => DropsUnsealed s label ∧ DetachesOwn s label)
      (fun _ _ passed => of_decide_eq_true passed) (tinyWrite ++ tinyDrop)
      (fun s => s.created = 1 ∧ s.freed 0 = false ∧ (s.pages 0).inQueue = false)
      (by decide +kernel)
  have opened : Run (Engine.step .standard) _ (Engine.openAt 1 .standard emptyFile (fun _ => 0) 0) s :=
    run
  exact ⟨s, run, alive, idle, (no_orphan opened).1 0 (by omega) alive⟩

set_option maxRecDepth 4000 in
/-- A page that was sealed and detached, and whose holes Stage-1 then cannot read, is out of
reach: nobody will free it. -/
theorem no_orphan_leaked :
    ∃ s : Engine 1, Reachable .standard emptyFile (fun _ => 0) s ∧ 0 < s.created ∧
      s.freed 0 = false ∧ ¬ Accounted s 0 := by
  obtain ⟨s, reached, created, alive, chain, queues, hand, batch, pc⟩ :=
    exists_reachable .standard emptyFile (fun _ => 0) (sealPage 0 ++ tinyDrop)
      (fun s => 0 < s.created ∧ s.freed 0 = false ∧ s.buckets (piHash (s.pages 0).base) = [] ∧
        s.q1 ++ s.q2 = [] ∧ s.s1.pages = [] ∧ s.s2.pages = [] ∧ (s.fg 0).admitted = false)
      (by decide +kernel)
  refine ⟨s, reached, created, alive, ?_⟩
  rintro (⟨b, linked⟩ | queued | held | held | ⟨t, call, done, pc', position, grasped⟩)
  · obtain rfl := ((sound_of_run reached).owned.indexed b 0 linked).2
    rw [show s.custody.base 0 = (s.pages 0).base from rfl, chain] at linked
    simp at linked
  · simp [queues] at queued
  · simp [hand] at held
  · simp [batch] at held
  · obtain rfl : t = 0 := Subsingleton.elim _ _
    rw [position] at pc
    cases pc' <;> simp [Fg.admitted, ChunkPc.grasped] at pc grasped

end NoxDB

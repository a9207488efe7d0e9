import Mathlib.Data.List.Find
import NoxDB.Engine.Threads

/-! # The mutexes are used in order

Every step takes its mutexes in the order shard, page, leaf; only its first one can be held
across steps by somebody else; and whatever makes the condition of a waiting thread true
signals the condition variable it waits on.
-/

namespace NoxDB

open Library.Monitors

variable {n : Nat} {cfg : Config} {s s' : Engine n} {label : Label n}

/-! ## The mutexes are taken in order -/

/-- At most one mutex, or one that is ranked below a leaf. -/
inductive Nested : List Mutex → Prop where
  | single {mutexes : List Mutex} (short : mutexes.length ≤ 1) : Nested mutexes
  | leaf {outer inner : Mutex} (below : outer.rank < inner.rank) (last : inner.rank = 2) :
      Nested [outer, inner]

theorem Nested.ordered {mutexes : List Mutex} (nested : Nested mutexes) :
    mutexes.Pairwise fun mutex later => mutex.rank < later.rank := by
  cases nested with
  | single short =>
    match mutexes, short with
    | [], _ => exact .nil
    | [mutex], _ => exact List.pairwise_singleton _ _
  | leaf below _ => simpa using below

theorem Nested.rank_of_later {mutexes : List Mutex} {mutex : Mutex} (nested : Nested mutexes)
    (later : mutex ∈ mutexes.tail) : mutex.rank = 2 := by
  cases nested with
  | single short =>
    match mutexes, short with
    | [], _ => simp at later
    | [first], _ => simp at later
  | leaf _ last =>
    obtain rfl : mutex = _ := by simpa using later
    exact last

theorem nested (s : Engine n) (t : Thread n) : Nested (s.wanted t) := by
  cases t with
  | fg t =>
    simp only [Engine.wanted]
    split
    · next call done pc position =>
      cases pc with
      | lookup =>
        simp only [Engine.fgWanted]
        split
        · exact .single le_rfl
        · exact .leaf (by simp [Mutex.rank]) rfl
      | _ => exact .single (by simp [Engine.fgWanted])
    · exact .single (by simp)
  | stage1 =>
    simp only [Engine.wanted]
    cases s.s1 with
    | finish p ok =>
      cases ok with
      | true => exact .single le_rfl
      | false => exact .leaf (by simp [Mutex.rank]) rfl
    | reading p runs => cases runs <;> exact .single (by simp [Engine.stage1Wanted])
    | _ => exact .single (by simp [Engine.stage1Wanted])
  | stage2 =>
    apply Nested.single
    simp only [Engine.wanted]
    unfold Engine.stage2Wanted
    split <;> (try split) <;> simp
  | closer =>
    apply Nested.single
    simp only [Engine.wanted]
    unfold Engine.closerWanted
    split <;> simp

theorem busy_leaf {mutex : Mutex} (leaf : mutex.rank = 2) : s.busy mutex = false := by
  cases mutex <;> simp_all [Mutex.rank, Engine.busy]

theorem needs_fg (move : FgMove cfg s label s') {mutex : Mutex}
    (wanted : mutex ∈ s.wanted label.mover) : s.busy mutex = false := by
  cases move with
  | lookupFound position free found =>
    simp only [Label.mover, Engine.wanted, position, Engine.fgWanted, found, Option.isSome_some,
      if_true, List.mem_singleton] at wanted
    simp [wanted, Engine.busy, free]
  | alloc position free absent | oomPage position free absent =>
    simp only [Label.mover, Engine.wanted, position, Engine.fgWanted, absent, Option.isSome_none,
      Bool.false_eq_true, if_false, List.mem_cons, List.not_mem_nil, or_false] at wanted
    rcases wanted with rfl | rfl
    · simp [Engine.busy, free]
    · rfl
  | detach position free =>
    simp only [Label.mover, Engine.wanted, position, Engine.fgWanted, List.mem_singleton] at wanted
    simp [wanted, Engine.busy, free]
  | lockPage position free =>
    simp only [Label.mover, Engine.wanted, position, Engine.fgWanted, List.mem_singleton] at wanted
    simp [wanted, Engine.busy, free]
  | gatePass position | gatePark position | parkedPass position | partialInc position
  | partialPush position | fullInc position | fullEnter position | fullPush position =>
    simp only [Label.mover, Engine.wanted, position, Engine.fgWanted, Enqueue.mutex,
      List.mem_singleton] at wanted
    rw [wanted]
    rfl
  | callZero position | callDirect position | callScrap position | oomDirect position
  | decide position | unlockMore position | unlockDone position | unlockRetry position
  | pwrite position =>
    simp [Label.mover, Engine.wanted, position, Engine.fgWanted] at wanted

theorem needs_stage1 (move : Stage1Move cfg s label s') {mutex : Mutex}
    (wanted : mutex ∈ s.wanted label.mover) : s.busy mutex = false := by
  cases move with
  | inspectFull position free | inspectBusy position free | inspectHoles position free
  | fill position free =>
    simp only [Label.mover, Engine.wanted, position, Engine.stage1Wanted, List.mem_singleton] at wanted
    simp [wanted, Engine.busy, free]
  | drop position free =>
    simp only [Label.mover, Engine.wanted, position, Engine.stage1Wanted, List.mem_cons,
      List.not_mem_nil, or_false] at wanted
    rcases wanted with rfl | rfl
    · simp [Engine.busy, free]
    · rfl
  | readStart position | preadOk position | preadFail position =>
    simp [Label.mover, Engine.wanted, position, Engine.stage1Wanted] at wanted
  | pop position | exit position | forwardEnter position | forwardPush position
  | busyPush position | wake position | guardPass position | readEnd position | readFailed position
  | dropDec position | fillEnter position | fillPush position =>
    simp only [Label.mover, Engine.wanted, position, Engine.stage1Wanted, List.mem_singleton] at wanted
    rw [wanted]
    rfl

theorem needs_stage2 (move : Stage2Move s label s') {mutex : Mutex}
    (wanted : mutex ∈ s.wanted label.mover) : s.busy mutex = false := by
  cases move with
  | checkReady position free | checkNotReady position free | tag position free =>
    simp only [Label.mover, Engine.wanted, position, Engine.stage2Wanted, List.mem_singleton] at wanted
    simp [wanted, Engine.busy, free]
  | unlink position linked free =>
    simp only [Label.mover, Engine.wanted, position, Engine.stage2Wanted, linked,
      Bool.false_eq_true, if_false, List.mem_singleton] at wanted
    simp [wanted, Engine.busy, free]
  | unlinkSkip position already =>
    simp [Label.mover, Engine.wanted, position, Engine.stage2Wanted, already] at wanted
  | collectTake position room =>
    simp only [Label.mover, Engine.wanted, position, Engine.stage2Wanted, room, if_true,
      List.mem_singleton] at wanted
    rw [wanted]
    rfl
  | @collectStop batch position =>
    simp only [Label.mover, Engine.wanted, position, Engine.stage2Wanted] at wanted
    split at wanted
    · rw [List.mem_singleton.mp wanted]
      rfl
    · simp at wanted
  | @latch batch ok position =>
    simp only [Label.mover, Engine.wanted, position, Engine.stage2Wanted] at wanted
    split at wanted
    · simp at wanted
    · rw [List.mem_singleton.mp wanted]
      rfl
  | poppedBusy position | poppedGo position | detachDone position | writeStart position
  | freeDone position | pwritev position =>
    simp [Label.mover, Engine.wanted, position, Engine.stage2Wanted] at wanted
  | pop position | exit position | busyPush position | wake position | pushBack position
  | written position | free position | leave position | decrement position =>
    simp only [Label.mover, Engine.wanted, position, Engine.stage2Wanted, List.mem_singleton] at wanted
    rw [wanted]
    rfl

theorem needs_closer (sound : Sound cfg s) (move : CloserMove s label s') {mutex : Mutex}
    (wanted : mutex ∈ s.wanted label.mover) : s.busy mutex = false := by
  cases move with
  | sweepLock position alive free =>
    simp only [Label.mover, Engine.wanted, position, Engine.closerWanted, List.mem_singleton] at wanted
    simp [wanted, Engine.busy, free]
  | disarm position | firstDrain position | partialInc position | partialPush position
  | fullInc position | fullEnter position | fullPush position | secondDrain position
  | stopping position | shutdown1 position | shutdown2 position | lastCheck position
  | destroy position =>
    simp only [Label.mover, Engine.wanted, position, Engine.closerWanted, Enqueue.mutex,
      List.mem_singleton] at wanted
    rw [wanted]
    rfl
  | close position | sweepBucket position | sweepDone position | sweepUnlock position
  | sweepNextFault position | sweepNext position | join1 position | join2 position
  | closeFd position =>
    simp [Label.mover, Engine.wanted, position, Engine.closerWanted] at wanted
  | sweepFault position gone =>
    have linked := (sound.walk.current _ _ _ position).1
    exact absurd gone (by simpa [Engine.custody] using (sound.owned.indexed _ _ linked).1.2)

/-! ## What a step leaves to the other threads -/

theorem fg_other (move : Move cfg s label s') {t : Fin n} (other : .fg t ≠ label.mover) :
    s'.fg t = s.fg t := by
  apply fg_frame move
  cases label <;> simp_all [Label.thread, Label.mover, eq_comm]

theorem s1_other (move : Move cfg s label s') (other : .stage1 ≠ label.mover) : s'.s1 = s.s1 := by
  cases move with
  | fg move => cases move <;> rfl
  | stage1 move => cases move <;> exact absurd rfl other
  | stage2 move => cases move <;> rfl
  | closer move => cases move <;> rfl

theorem s2_other (move : Move cfg s label s') (other : .stage2 ≠ label.mover) : s'.s2 = s.s2 := by
  cases move with
  | fg move => cases move <;> rfl
  | stage1 move => cases move <;> rfl
  | stage2 move => cases move <;> exact absurd rfl other
  | closer move => cases move <;> rfl

theorem closer_other (move : Move cfg s label s') (other : .closer ≠ label.mover) :
    s'.closer = s.closer := by
  cases move with
  | fg move => cases move <;> rfl
  | stage1 move => cases move <;> rfl
  | stage2 move => cases move <;> rfl
  | closer move => cases move <;> exact absurd rfl other

/-- A chain changes under its shard lock, except when the index is destroyed. -/
theorem buckets_step (move : Move cfg s label s') (base : Nat) :
    s'.buckets (piHash base) = s.buckets (piHash base) ∨
      .shard (Engine.shardOf base) ∈ s.wanted label.mover ∨ ∃ err, s.closer = .destroy err := by
  have elsewhere : ∀ {base' : Nat} {chain : List PageId},
      s'.buckets = Function.update s.buckets (piHash base') chain →
      .shard (Engine.shardOf base') ∈ s.wanted label.mover →
      s'.buckets (piHash base) = s.buckets (piHash base) ∨
        .shard (Engine.shardOf base) ∈ s.wanted label.mover ∨ ∃ err, s.closer = .destroy err := by
    intro base' chain buckets wanted
    by_cases same : piHash base = piHash base'
    · exact .inr (.inl (by rw [Engine.shardOf, same]; exact wanted))
    · exact .inl (by rw [buckets, Function.update_of_ne same])
  cases move with
  | fg move =>
    cases move with
    | alloc position free absent =>
      exact elsewhere rfl (by
        simp [Label.mover, Engine.wanted, position, Engine.fgWanted, absent])
    | detach position =>
      exact elsewhere rfl (by simp [Label.mover, Engine.wanted, position, Engine.fgWanted])
    | _ => exact .inl rfl
  | stage1 move => cases move <;> exact .inl rfl
  | stage2 move =>
    cases move with
    | unlink position linked =>
      exact elsewhere rfl (by
        simp [Label.mover, Engine.wanted, position, Engine.stage2Wanted, linked])
    | _ => exact .inl rfl
  | closer move =>
    cases move with
    | destroy position => exact .inr (.inr ⟨_, position⟩)
    | _ => exact .inl rfl

theorem find_step (sound : Sound cfg s) (move : Move cfg s label s') {base : Nat}
    (chain : s'.buckets (piHash base) = s.buckets (piHash base)) : s'.find base = s.find base := by
  rw [Engine.find, Engine.find, chain]
  apply List.find?_congr
  intro p member
  rw [base_stable (sound.refines move) p (sound.owned.indexed _ p member).1.1]

/-- Only Stage-2 sets `detached`. -/
theorem detached_step (sound : Sound cfg s) (move : Move cfg s label s') {p : PageId}
    (old : p < s.created) (other : .stage2 ≠ label.mover) :
    (s'.pages p).detached = (s.pages p).detached := by
  have stage : s'.s2 = s.s2 := s2_other move other
  have unlinked : s'.custody.unlinked = s.custody.unlinked := congrArg Stage2.unlinked stage
  rcases sound.refines move with same | step
  · exact congrFun (congrArg Custody.detached same) p
  · change s'.custody.detached p = s.custody.detached p
    generalize s'.custody = after at step unlinked
    cases step with
    | create => exact Function.update_of_ne (Nat.ne_of_lt old) _ _
    | unlink none_ => simp [none_] at unlinked
    | _ => rfl

theorem page_lt_created (sound : Sound cfg s) {t : Thread n} {p : PageId}
    (wanted : .page p ∈ s.wanted t) : p < s.created := by
  have queued : ∀ {q}, q ∈ s.custody.pipe → q < s.created := fun member =>
    (sound.owned.live _ member).1
  cases t with
  | fg t =>
    have rights := sound.owned.rights (.fg t)
    cases position : s.fg t with
    -- A thread waits only for a page that it has found in the index.
    | scrap call done pc =>
      simp only [Engine.wanted, position] at wanted
      cases pc with
      | lockPage q =>
        simp only [Engine.fgWanted, List.mem_singleton, Mutex.page.injEq] at wanted
        subst wanted
        simp only [Engine.custody, roleOf_fg, position, Fg.role, ChunkPc.role, Custody.Rights] at rights
        exact (sound.owned.indexed _ p rights.1).1.1
      | lookup =>
        simp only [Engine.fgWanted] at wanted
        split at wanted <;> simp at wanted
      | enqueue q e after => cases e <;> simp [Engine.fgWanted, Enqueue.mutex] at wanted
      | _ => simp [Engine.fgWanted] at wanted
    | _ => simp [Engine.wanted, position] at wanted
  | stage1 =>
    -- The stages wait only for pages that they hold.
    have hand : p ∈ s.s1.pages := by
      cases position : s.s1 with
      | finish q ok =>
        cases ok <;> simpa [Engine.wanted, position, Engine.stage1Wanted, Stage1.pages] using wanted
      | popped q => simpa [Engine.wanted, position, Engine.stage1Wanted, Stage1.pages] using wanted
      | reading q runs => cases runs <;> simp [Engine.wanted, position, Engine.stage1Wanted] at wanted
      | _ => simp [Engine.wanted, position, Engine.stage1Wanted] at wanted
    exact queued (Custody.mem_pipe_of_waiting (by simp [Custody.waiting, Engine.custody, hand]))
  | stage2 =>
    have hands : p ∈ s.s2.unlinked.toList ++ s.s2.kept := by
      cases position : s.s2 with
      | check batch q | tagging done q todo =>
        simp only [Engine.wanted, position, Engine.stage2Wanted, List.mem_singleton,
          Mutex.page.injEq] at wanted
        simp [Stage2.unlinked, Stage2.kept, wanted]
      | collect batch | detaching done todo | latch batch ok | freeing batch =>
        simp only [Engine.wanted, position] at wanted
        unfold Engine.stage2Wanted at wanted
        grind
      | _ => simp [Engine.wanted, position, Engine.stage2Wanted] at wanted
    exact queued (Custody.mem_pipe_of_waiting (by
      simp only [Custody.waiting, Engine.custody, List.mem_append] at hands ⊢
      grind))
  | closer =>
    cases position : s.closer with
    | sweep err bucket cur =>
      cases cur with
      | none => simp [Engine.wanted, position, Engine.closerWanted] at wanted
      | some q =>
        simp only [Engine.wanted, position, Engine.closerWanted, List.mem_singleton,
          Mutex.page.injEq] at wanted
        subst wanted
        exact (sound.owned.indexed _ p (sound.walk.current _ _ _ position).1).1.1
    | sweepEnqueue err bucket q e =>
      cases e <;> simp [Engine.wanted, position, Engine.closerWanted, Enqueue.mutex] at wanted
    | _ => simp [Engine.wanted, position, Engine.closerWanted] at wanted

theorem wanted_stable (sound : Sound cfg s) (move : Move cfg s label s') {t : Thread n}
    (other : t ≠ label.mover)
    (apart : ∀ mutex, (s.wanted t).head? = some mutex → mutex ∉ s.wanted label.mover) :
    s'.wanted t = s.wanted t := by
  cases t with
  | fg t =>
    have same := fg_other move other
    simp only [Engine.wanted, same]
    cases position : s.fg t with
    | scrap call done pc =>
      cases pc with
      | lookup =>
        have running : s.closer.phase = 0 := by
          by_contra started
          simp [sound.phases.idle (Nat.pos_of_ne_zero started) t] at position
        have first : .shard (Engine.shardOf (call.base done)) ∉ s.wanted label.mover := by
          apply apart
          simp only [Engine.wanted, position, Engine.fgWanted]
          split <;> rfl
        have chain : s'.buckets (piHash (call.base done)) = s.buckets (piHash (call.base done)) := by
          rcases buckets_step move (call.base done) with same | wanted | ⟨err, destroying⟩
          · exact same
          · exact absurd wanted first
          · simp [destroying, Closer.phase] at running
        simp only [Engine.fgWanted, find_step sound move chain]
      | _ => rfl
    | _ => rfl
  | stage1 => simp only [Engine.wanted, s1_other move other]
  | stage2 =>
    simp only [Engine.wanted, s2_other move other]
    cases position : s.s2 with
    | detaching done todo =>
      cases todo with
      | nil => rfl
      | cons p todo =>
        have old : p < s.created := sound.kept_lt_created (by simp [position, Stage2.kept])
        simp only [Engine.stage2Wanted, detached_step sound move old other,
          base_stable (sound.refines move) p old]
    | freeing batch => cases batch <;> rfl
    | _ => rfl
  | closer => simp only [Engine.wanted, closer_other move other]

/-- What a step holds on to is what it took, or a page it created. -/
theorem busy_step (sound : Sound cfg s) (move : Move cfg s label s') {mutex : Mutex}
    (busy : s'.busy mutex = true) :
    s.busy mutex = true ∨ mutex ∈ s.wanted label.mover ∨ ∀ t, mutex ∉ s.wanted t := by
  -- A step leaves the mutexes alone, releases the page it has, or takes a page.
  have same : s'.shard = s.shard → s'.lock = s.lock → s.busy mutex = true := fun shards locks => by
    cases mutex <;> simp_all [Engine.busy]
  have released : ∀ {p : PageId}, s'.shard = s.shard → s'.lock = Function.update s.lock p none →
      s.busy mutex = true := by
    intro p shards locks
    cases mutex with
    | page q =>
      by_cases equal : q = p
      · subst equal
        simp [Engine.busy, locks] at busy
      · simpa [Engine.busy, locks, equal] using busy
    | shard i => simpa [Engine.busy, shards] using busy
    | _ => simp [Engine.busy] at busy
  have taken : ∀ {p : PageId} {owner : Option (Owner n)},
      (∀ i, (s'.shard i).isSome = true → (s.shard i).isSome = true) →
      s'.lock = Function.update s.lock p owner →
      s.busy mutex = true ∨ mutex = .page p := by
    intro p owner shards locks
    cases mutex with
    | shard i => exact .inl (shards i busy)
    | page q =>
      by_cases equal : q = p
      · exact .inr (by rw [equal])
      · exact .inl (by simpa [Engine.busy, locks, equal] using busy)
    | _ => simp [Engine.busy] at busy
  cases move with
  | fg move =>
    cases move with
    | @lookupFound t call done p position free found =>
      cases mutex with
      | shard i =>
        by_cases equal : i = Engine.shardOf (call.base done)
        · right; left
          simp [Label.mover, Engine.wanted, position, Engine.fgWanted, found, equal]
        · left
          simpa [Engine.busy, equal] using busy
      | _ => exact .inl busy
    | @alloc t call done address zone position free absent =>
      rcases taken (fun _ => id) rfl with before | rfl
      · exact .inl before
      -- Nobody can want a page that did not exist.
      · exact .inr (.inr fun t wanted => lt_irrefl _ (page_lt_created sound wanted))
    | @lockPage t call done p position free =>
      have fewer : ∀ i, ((Function.update s.shard (Engine.shardOf (call.base done)) none) i).isSome =
          true → (s.shard i).isSome = true := by
        intro i
        by_cases equal : i = Engine.shardOf (call.base done)
        · subst equal; simp
        · simp [equal]
      rcases taken fewer rfl with before | rfl
      · exact .inl before
      · right; left
        simp [Label.mover, Engine.wanted, position, Engine.fgWanted]
    | unlockMore | unlockDone | unlockRetry => exact .inl (released rfl rfl)
    | _ => exact .inl (same rfl rfl)
  | stage1 move => cases move <;> exact .inl (same rfl rfl)
  | stage2 move => cases move <;> exact .inl (same rfl rfl)
  | closer move =>
    cases move with
    | @sweepLock err bucket p position alive free page enqueue chosen =>
      rcases taken (fun _ => id) rfl with before | rfl
      · exact .inl before
      · right; left
        simp [Label.mover, Engine.wanted, position, Engine.closerWanted]
    | sweepUnlock => exact .inl (released rfl rfl)
    | _ => exact .inl (same rfl rfl)

/-! ## No wakeup is lost -/

/-- A thread that steps out of a wait found its condition true. -/
theorem ready_of_step (move : Move cfg s label s')
    (waits : (s.waitsOn label.mover).isSome = true) : s.isReady label.mover = true := by
  cases move with
  | fg move =>
    cases move with
    | parkedPass position released => simpa [Label.mover, Engine.isReady] using released
    | callZero position | callDirect position | callScrap position | gatePass position
    | gatePark position | lookupFound position | alloc position | oomPage position
    | oomDirect position | lockPage position | decide position | partialInc position
    | partialPush position | fullInc position | fullEnter position | fullPush position
    | unlockMore position | unlockDone position | unlockRetry position | detach position
    | pwrite position => simp [Label.mover, Engine.waitsOn, position, Fg.isParked] at waits
  | stage1 move =>
    cases move with
    | pop position queue => simp [Label.mover, Engine.isReady, position, queue]
    | exit position queue shut => simp [Label.mover, Engine.isReady, position, shut]
    | guardPass position quiet => simp [Label.mover, Engine.isReady, position, quiet]
    | inspectFull position | inspectBusy position | inspectHoles position | forwardEnter position
    | forwardPush position | busyPush position | wake position | readStart position
    | readEnd position | readFailed position | fill position | drop position | dropDec position
    | fillEnter position | fillPush position | preadOk position | preadFail position =>
      simp [Label.mover, Engine.waitsOn, position] at waits
  | stage2 move =>
    cases move with
    | pop position queue => simp [Label.mover, Engine.isReady, queue]
    | exit position queue shut => simp [Label.mover, Engine.isReady, shut]
    | poppedBusy position | poppedGo position | busyPush position | wake position
    | collectTake position | collectStop position | checkReady position | checkNotReady position
    | pushBack position | detachDone position | unlinkSkip position | unlink position
    | tag position | writeStart position | written position | latch position | freeDone position
    | free position | leave position | decrement position | pwritev position =>
      simp [Label.mover, Engine.waitsOn, position] at waits
  | closer move =>
    cases move with
    | firstDrain position drained => simp [Label.mover, Engine.isReady, drained]
    | secondDrain position drained => simp [Label.mover, Engine.isReady, drained]
    | close position | disarm position | sweepBucket position | sweepDone position
    | sweepFault position | sweepLock position | partialInc position | partialPush position
    | fullInc position | fullEnter position | fullPush position | sweepUnlock position
    | sweepNextFault position | sweepNext position | stopping position | shutdown1 position
    | join1 position | shutdown2 position | join2 position | lastCheck position
    | destroy position | closeFd position =>
      simp [Label.mover, Engine.waitsOn, position] at waits

theorem wakes_gate (sound : Sound cfg s) (move : Move cfg s label s') {t : Fin n}
    (parked : (s.fg t).isParked = true) (unready : s.isReady (.fg t) = false)
    (ready : s'.isReady (.fg t) = true) : s.signal label = some .gate := by
  have closed : s.watermark.armed = true ∧ s.watermark.low < s.watermark.live := by
    simpa [Engine.isReady] using unready
  have same : s'.watermark = s.watermark → s.signal label = some .gate := fun equal => by
    simp [Engine.isReady, equal, closed] at ready
    omega
  cases move with
  | fg move =>
    cases move with
    | alloc =>
      simp [Engine.isReady, closed] at ready
      omega
    | gatePark =>
      simp [Engine.isReady, closed] at ready
      omega
    | _ => exact same rfl
  | stage1 move => cases move <;> exact same rfl
  | stage2 move =>
    cases move with
    | free position =>
      have low : s.watermark.live - 1 ≤ s.watermark.low := by
        simpa [Engine.isReady, closed] using ready
      simp [Engine.signal, Engine.stage2Signal, position, closed, low]
    | _ => exact same rfl
  | closer move =>
    cases move with
    | disarm position => simp [Engine.signal, Engine.closerSignal, position]
    | destroy position =>
      have idle := sound.phases.idle (by simp [position, Closer.phase]) t
      simp [idle, Fg.isParked] at parked
    | _ => exact same rfl

theorem wakes_queue1 (move : Move cfg s label s') (other : .stage1 ≠ label.mover)
    (empty : s.q1 = []) (opened : s.shut1 = false) (ready : s'.q1 ≠ [] ∨ s'.shut1 = true) :
    s.signal label = some .queue1 := by
  have same : s'.q1 = s.q1 → s'.shut1 = s.shut1 → s.signal label = some .queue1 :=
    fun queue shut => by simp [queue, shut, empty, opened] at ready
  cases move with
  | fg move =>
    cases move with
    | partialPush position => simp [Engine.signal, position, Enqueue.signal]
    | _ => exact same rfl rfl
  | stage1 move => cases move <;> exact absurd rfl other
  | stage2 move => cases move <;> exact same rfl rfl
  | closer move =>
    cases move with
    | partialPush position => simp [Engine.signal, Engine.closerSignal, position, Enqueue.signal]
    | shutdown1 position => simp [Engine.signal, Engine.closerSignal, position]
    | _ => exact same rfl rfl

theorem wakes_queue2 (move : Move cfg s label s') (other : .stage2 ≠ label.mover)
    (empty : s.q2 = []) (opened : s.shut2 = false) (ready : s'.q2 ≠ [] ∨ s'.shut2 = true) :
    s.signal label = some .queue2 := by
  have same : s'.q2 = s.q2 → s'.shut2 = s.shut2 → s.signal label = some .queue2 :=
    fun queue shut => by simp [queue, shut, empty, opened] at ready
  cases move with
  | fg move =>
    cases move with
    | fullPush position => simp [Engine.signal, position, Enqueue.signal]
    | _ => exact same rfl rfl
  | stage1 move =>
    cases move with
    | forwardPush position | fillPush position =>
      simp [Engine.signal, Engine.stage1Signal, position]
    | _ => exact same rfl rfl
  | stage2 move => cases move <;> exact absurd rfl other
  | closer move =>
    cases move with
    | fullPush position => simp [Engine.signal, Engine.closerSignal, position, Enqueue.signal]
    | shutdown2 position => simp [Engine.signal, Engine.closerSignal, position]
    | _ => exact same rfl rfl

/-- A slot of the guard that empties was left just now. -/
theorem wakes_guard (move : Move cfg s label s') {slot : Nat} (before : s.wb slot ≠ 0)
    (after : s'.wb slot = 0) : s.signal label = some .wbDone := by
  have same : s'.wb = s.wb → s.signal label = some .wbDone := fun equal =>
    absurd (equal ▸ after) before
  have raised : ∀ {base : Nat}, s'.wb = Function.update s.wb (wbSlot base) (s.wb (wbSlot base) + 1) →
      s.signal label = some .wbDone := by
    intro base wb
    by_cases here : slot = wbSlot base
    · subst here
      simp [wb] at after
    · simp [wb, here, before] at after
  cases move with
  | fg move =>
    cases move with
    | fullEnter => exact raised rfl
    | _ => exact same rfl
  | stage1 move =>
    cases move with
    | forwardEnter | fillEnter => exact raised rfl
    | _ => exact same rfl
  | stage2 move =>
    cases move with
    | leave position => simp [Engine.signal, Engine.stage2Signal, position]
    | _ => exact same rfl
  | closer move =>
    cases move with
    | fullEnter => exact raised rfl
    | _ => exact same rfl

theorem wakes_drain (move : Move cfg s label s') (before : s.pending ≠ 0)
    (after : s'.pending = 0) : s.signal label = some .idle := by
  have same : s'.pending = s.pending → s.signal label = some .idle := fun equal =>
    absurd (equal ▸ after) before
  cases move with
  | fg move =>
    cases move with
    | partialInc | fullInc => simp at after
    | _ => exact same rfl
  | stage1 move =>
    cases move with
    | dropDec position => simpa [Engine.signal, Engine.stage1Signal, position] using after
    | _ => exact same rfl
  | stage2 move =>
    cases move with
    | decrement position => simpa [Engine.signal, Engine.stage2Signal, position] using after
    | _ => exact same rfl
  | closer move =>
    cases move with
    | partialInc | fullInc => simp at after
    | _ => exact same rfl

theorem wakes (sound : Sound cfg s) (move : Move cfg s label s') {t : Thread n} {c : Condvar}
    (other : t ≠ label.mover) (waits : s.waitsOn t = some c) (unready : s.isReady t = false) :
    s'.waitsOn t = some c ∧ (s'.isReady t = true → s.signal label = some c) := by
  cases t with
  -- A thread that waits has not moved, so only its condition can have changed.
  | fg t =>
    have same := fg_other move other
    simp only [Engine.waitsOn, same] at waits ⊢
    refine ⟨waits, fun ready => ?_⟩
    split at waits
    · next parked =>
      cases waits
      exact wakes_gate sound move parked unready ready
    · contradiction
  | stage1 =>
    have same := s1_other move other
    simp only [Engine.waitsOn, same] at waits ⊢
    refine ⟨waits, fun ready => ?_⟩
    split at waits
    · next position =>
      cases waits
      simp only [Engine.isReady, position, same, Bool.or_eq_false_iff, Bool.or_eq_true] at unready ready
      exact wakes_queue1 move other (by simpa using unready.1) unready.2 (by simpa using ready)
    · next p holes position =>
      cases waits
      have old : p < s.created := sound.hand_lt_created (by simp [position, Stage1.pages])
      simp only [Engine.isReady, position, same, base_stable (sound.refines move) p old,
        beq_eq_false_iff_ne, beq_iff_eq] at unready ready
      exact wakes_guard move unready ready
    · contradiction
  | stage2 =>
    have same := s2_other move other
    simp only [Engine.waitsOn, same] at waits ⊢
    refine ⟨waits, fun ready => ?_⟩
    split at waits
    · cases waits
      simp only [Engine.isReady, Bool.or_eq_false_iff, Bool.or_eq_true] at unready ready
      exact wakes_queue2 move other (by simpa using unready.1) unready.2 (by simpa using ready)
    · contradiction
  | closer =>
    have same := closer_other move other
    simp only [Engine.waitsOn, same] at waits ⊢
    refine ⟨waits, fun ready => ?_⟩
    simp only [Engine.isReady, beq_eq_false_iff_ne, beq_iff_eq] at unready ready
    split at waits
    · cases waits
      exact wakes_drain move unready ready
    · cases waits
      exact wakes_drain move unready ready
    · contradiction

theorem monitor_lawful (n : Nat) (cfg : Config) :
    (monitor n cfg).Lawful (Sound cfg) Mutex.rank 2 where
  bounded := fun mutex => by cases mutex <;> simp [Mutex.rank]
  ordered := fun s t => (nested s t).ordered
  leaf := fun {s t mutex} later => busy_leaf ((nested s t).rank_of_later later)
  needs := fun {s s' label mutex} sound stepped wanted => by
    cases move_of_step stepped with
    | fg move => exact needs_fg move wanted
    | stage1 move => exact needs_stage1 move wanted
    | stage2 move => exact needs_stage2 move wanted
    | closer move => exact needs_closer sound move wanted
  takes := fun sound stepped busy => busy_step sound (move_of_step stepped) busy
  stable := fun sound stepped other apart =>
    wanted_stable sound (move_of_step stepped) other fun mutex head => (apart mutex head).1
  blocked := fun _ stepped waits => ready_of_step (move_of_step stepped) waits
  wakes := fun sound stepped other waits unready =>
    NoxDB.wakes sound (move_of_step stepped) other waits unready

end NoxDB

import NoxDB.Queue

/-! # The queues are lists

The invariant of `queue.c`, and what it gives: outside the critical sections a queue is the list of
the pages that were pushed and not popped.  Every page is in one place, which is what makes one
link enough for two queues.
-/

namespace NoxDB

open Function (update)
open Library.Links
open Library.Locks
open Library.Lists
open Library.Runs

variable {n : Nat}

namespace QueuePc

/-- The queue whose mutex the thread has. -/
def holds : QueuePc → Option QueueId
  | .link q _ | .setTail q _ | .incDepth q _ | .signal q _ | .unlockPush q _ | .test q
  | .testBase q _ | .unlinkHead q _ | .clearTail q _ _ | .decDepth q _ _ | .clearNext q _ _
  | .unlockPop q _ _ | .setShutdown q | .broadcast q | .unlockShutdown q | .readDepth q
  | .unlockDepth q _ => some q
  | .idle | .clear _ _ | .lockPush _ _ | .lockPop _ | .asleep _ | .lockPopIf _ _ | .lockShutdown _
  | .lockDepth _ => none

/-- The page that is between the call and a queue. -/
def hand : QueuePc → Option Nat
  | .clear _ p | .lockPush _ p | .link _ p | .clearTail _ _ p | .decDepth _ _ p
  | .clearNext _ _ p => some p
  | .unlockPop _ _ result => result
  | _ => none

/-- The page whose link the call has cleared. -/
def cleared : QueuePc → Option Nat
  | .lockPush _ p | .link _ p => some p
  | _ => none

variable {pc pc' : QueuePc} {q : QueueId}

theorem hand_of_cleared {p : Nat} (cleared : pc.cleared = some p) : pc.hand = some p := by
  cases pc <;> simp_all [QueuePc.cleared, hand]

theorem of_entering (position : pc.entering = some (q, pc')) :
    pc.holds = none ∧ pc'.holds = some q ∧ pc'.hand = pc.hand ∧ pc'.cleared = pc.cleared := by
  cases pc with
  | lockPush | lockPop | lockPopIf | lockShutdown | lockDepth =>
    cases position
    exact ⟨rfl, rfl, rfl, rfl⟩
  | _ => cases position

theorem holds_of_leaving (position : pc.leaving = some q) : pc.holds = some q := by
  cases pc with
  | unlockPush | unlockPop | unlockShutdown | unlockDepth => exact position
  | _ => cases position

end QueuePc

/-- A call holds no mutex yet, and only a push has a page. -/
theorem QueueLabel.of_start {label : QueueLabel n} {t : Fin n} {pc : QueuePc}
    (starts : label.start = some (t, pc)) :
    pc.holds = none ∧ pc.cleared = none ∧
      ∀ p, pc.hand = some p → ∃ q, label = .push t q p := by
  cases label with
  | push u q p =>
    cases starts
    refine ⟨rfl, rfl, fun p' same => ?_⟩
    cases same
    exact ⟨q, rfl⟩
  | pop | popIfBase | shutdown | depth =>
    cases starts
    exact ⟨rfl, rfl, fun p' same => nomatch same⟩
  | _ => cases starts

variable {base : Nat → Nat} {s s' : Queues n} {label : QueueLabel n}

/-- A push is called with a page that is in no queue and that no call is moving. -/
def Unqueued (s : Queues n) : QueueLabel n → Prop
  | .push _ _ p => (∀ q, p ∉ (s.queue q).content) ∧ ∀ t, (s.pc t).hand ≠ some p
  | _ => True

/-! ## The mutexes -/

theorem queueLocked_step (locked : Consistent s.lock fun t => (s.pc t).holds)
    (move : QueueMove base s label s') : Consistent s'.lock fun t => (s'.pc t).holds := by
  cases move with
  | call position starts =>
    exact locked.quiet (by rw [position, (QueueLabel.of_start starts).1]; rfl)
  | clear position | linkFirst position | linkLast position | setTail position | incDepth position
  | signalNone position | go position | hit position | miss position | nothing position
  | unlink position | clearTail position | decDepth position | clearNext position
  | setShutdown position | readDepth position | spurious position =>
    exact locked.quiet (by rw [position]; rfl)
  | @acquire t q pc position free =>
    obtain ⟨before, after, -⟩ := QueuePc.of_entering position
    rw [map_update QueuePc.holds, after]
    exact locked.acquire free before
  | @signalOne t q p u position sleeps =>
    -- A sleeper is not in its critical section, and neither is it once it has been woken.
    have differs : t ≠ u := by
      rintro rfl
      rw [position] at sleeps
      cases sleeps
    have woken : Consistent s.lock fun v => (update s.pc u (.lockPop q) v).holds :=
      locked.quiet (by rw [sleeps]; rfl)
    refine woken.quiet ?_
    rw [Function.update_of_ne differs, position]
    rfl
  | @sleep t q position =>
    rw [map_update QueuePc.holds]
    exact locked.release (by rw [position]; rfl)
  | @broadcast t q position =>
    have woken : Consistent s.lock
        fun u => (if s.pc u = .asleep q then .lockPop q else s.pc u : QueuePc).holds := by
      -- Waking changes where the sleepers are and not who has a mutex.
      have same : (fun u => (if s.pc u = .asleep q then .lockPop q else s.pc u : QueuePc).holds) =
          fun u => (s.pc u).holds := by
        funext u
        by_cases sleeps : s.pc u = .asleep q
        · rw [if_pos sleeps, sleeps]
          rfl
        · rw [if_neg sleeps]
      rw [same]
      exact locked
    refine woken.quiet ?_
    simp only [position, reduceCtorEq, if_false]
    rfl
  | @release t q position =>
    rw [map_update QueuePc.holds]
    exact locked.release (QueuePc.holds_of_leaving position)

/-! ## Where the pages are -/

/-- Every page is in the hand of one call or in one queue. -/
structure OnePlace (s : Queues n) : Prop where
  single : ∀ t u p, (s.pc t).hand = some p → (s.pc u).hand = some p → t = u
  outside : ∀ t p, (s.pc t).hand = some p → ∀ q, p ∉ (s.queue q).content
  apart : ∀ q r p, p ∈ (s.queue q).content → p ∈ (s.queue r).content → q = r

theorem content_update {q : QueueId} {queue : NoxQueue n}
    (same : queue.content = (s.queue q).content) (r : QueueId) :
    (update s.queue q queue r).content = (s.queue r).content :=
  congrFun (map_update_same (f := NoxQueue.content) same) r

/-- What a thread has of `part` after it, or another one, moved on. -/
theorem of_update (part : QueuePc → Option Nat) {pcs : Fin n → QueuePc} {t : Fin n} {pc : QueuePc}
    (less : part pc = none ∨ part pc = part (pcs t)) (u : Fin n) (p : Nat)
    (has : part (update pcs t pc u) = some p) : part (pcs u) = some p := by
  by_cases mine : u = t
  · subst mine
    rw [Function.update_self] at has
    rcases less with none_ | same
    · simp [none_] at has
    · exact same.symm.trans has
  · rwa [Function.update_of_ne mine] at has

/-- The same where the sleepers of a queue were woken too: they have nothing. -/
theorem of_wakeAll (part : QueuePc → Option Nat) {pcs : Fin n → QueuePc} {t : Fin n} {pc : QueuePc}
    {q : QueueId} (sleeper : part (.lockPop q) = none) (less : part pc = none) (u : Fin n) (p : Nat)
    (has : part (update (fun v => if pcs v = .asleep q then .lockPop q else pcs v) t pc u) =
      some p) : part (pcs u) = some p := by
  have woken := of_update part (.inl less) u p has
  by_cases sleeps : pcs u = .asleep q
  · simp [if_pos sleeps, sleeper] at woken
  · rwa [if_neg sleeps] at woken

namespace OnePlace

/-- Pages can be let go. -/
theorem quiet (placed : OnePlace s) (contents : ∀ q, (s'.queue q).content = (s.queue q).content)
    (hands : ∀ t p, (s'.pc t).hand = some p → (s.pc t).hand = some p) : OnePlace s' where
  single t u p mine yours := placed.single t u p (hands t p mine) (hands u p yours)
  outside t p mine q := by
    rw [contents]
    exact placed.outside t p (hands t p mine) q
  apart q r p := by
    rw [contents, contents]
    exact placed.apart q r p

/-- A call takes a page that nobody has into its hand, also one it has just unlinked. -/
theorem take (placed : OnePlace s) {t : Fin n} {pc : QueuePc} {p : Nat}
    (pcs : s'.pc = update s.pc t pc)
    (fewer : ∀ q r, r ∈ (s'.queue q).content → r ∈ (s.queue q).content)
    (hand : pc.hand = some p) (fresh : ∀ u, (s.pc u).hand ≠ some p)
    (gone : ∀ q, p ∉ (s'.queue q).content) : OnePlace s' where
  single := by
    -- A page in a hand is either the new one, which only `t` has, or was in the same hand before.
    have owner : ∀ u r, (s'.pc u).hand = some r → u = t ∧ r = p ∨ (s.pc u).hand = some r := by
      intro u r mine
      rw [pcs] at mine
      by_cases same : u = t
      · subst same
        rw [Function.update_self, hand] at mine
        exact .inl ⟨rfl, (Option.some.inj mine).symm⟩
      · rw [Function.update_of_ne same] at mine
        exact .inr mine
    intro u v r mine yours
    rcases owner u r mine with ⟨rfl, rfl⟩ | old
    · rcases owner v r yours with ⟨rfl, -⟩ | older
      · rfl
      · exact absurd older (fresh v)
    · rcases owner v r yours with ⟨rfl, rfl⟩ | older
      · exact absurd old (fresh u)
      · exact placed.single u v r old older
  outside u r mine q member := by
    rw [pcs] at mine
    by_cases same : u = t
    · subst same
      rw [Function.update_self, hand] at mine
      obtain rfl := Option.some.inj mine
      exact gone q member
    · rw [Function.update_of_ne same] at mine
      exact placed.outside u r mine q (fewer q r member)
  apart q r p here there := placed.apart q r p (fewer q p here) (fewer r p there)

/-- A push puts the page in its hand into the queue. -/
theorem put (placed : OnePlace s) {t : Fin n} {q : QueueId} {pc : QueuePc} {queue : NoxQueue n}
    {p : Nat} (pcs : s'.pc = update s.pc t pc) (queues : s'.queue = update s.queue q queue)
    (content : queue.content = (s.queue q).content ++ [p]) (hand : (s.pc t).hand = some p)
    (empty : pc.hand = none) : OnePlace s' := by
  have hands : ∀ u r, (s'.pc u).hand = some r → u ≠ t ∧ (s.pc u).hand = some r := by
    intro u r mine
    rw [pcs] at mine
    by_cases same : u = t
    · subst same
      rw [Function.update_self, empty] at mine
      cases mine
    · rw [Function.update_of_ne same] at mine
      exact ⟨same, mine⟩
  have members : ∀ r x, x ∈ (s'.queue r).content → x ∈ (s.queue r).content ∨ r = q ∧ x = p := by
    intro r x member
    rw [queues] at member
    by_cases same : r = q
    · subst same
      rw [Function.update_self, content, List.mem_append, List.mem_singleton] at member
      exact member.imp_right fun new => ⟨rfl, new⟩
    · rw [Function.update_of_ne same] at member
      exact .inl member
  constructor
  · exact fun u v r mine yours => placed.single u v r (hands u r mine).2 (hands v r yours).2
  -- The page that became visible was in the hand of `t`, so in no other one.
  · intro u r mine x member
    obtain ⟨differs, old⟩ := hands u r mine
    rcases members x r member with here | ⟨-, rfl⟩
    · exact placed.outside u r old x here
    · exact differs (placed.single u t r old hand)
  · intro q' r' x here there
    rcases members q' x here with old | ⟨rfl, rfl⟩
    · rcases members r' x there with older | ⟨rfl, rfl⟩
      · exact placed.apart q' r' x old older
      · exact absurd old (placed.outside t x hand q')
    · rcases members r' x there with older | ⟨rfl, -⟩
      · exact absurd older (placed.outside t x hand r')
      · rfl

theorem step (placed : OnePlace s)
    (chain : ∀ q, Chain s.qnext (s.queue q).head (s.queue q).content) (unqueued : Unqueued s label)
    (move : QueueMove base s label s') : OnePlace s' := by
  have same : ∀ q, (s.queue q).content = (s.queue q).content := fun _ => rfl
  cases move with
  | @call t label pc position starts =>
    obtain ⟨-, -, pushed⟩ := QueueLabel.of_start starts
    cases hand : pc.hand with
    | none => exact placed.quiet same (of_update QueuePc.hand (.inl hand))
    | some p =>
      -- Of the calls only a push brings a page, and it is called with one that is nowhere else.
      obtain ⟨q, rfl⟩ := pushed p hand
      exact placed.take rfl (fun _ _ member => member) hand unqueued.2 unqueued.1
  | clear position | signalNone position | sleep position | go position | hit position
  | miss position | nothing position | clearNext position | readDepth position
  | spurious position =>
    exact placed.quiet same (of_update QueuePc.hand (.inr (by rw [position]; rfl)))
  | setTail position | incDepth position | clearTail position | decDepth position
  | setShutdown position =>
    exact placed.quiet (content_update rfl)
      (of_update QueuePc.hand (.inr (by rw [position]; rfl)))
  | acquire position =>
    obtain ⟨-, -, hand, -⟩ := QueuePc.of_entering position
    exact placed.quiet (content_update rfl) (of_update QueuePc.hand (.inr hand))
  | linkFirst position => exact placed.put rfl rfl rfl (by rw [position]; rfl) rfl
  | linkLast position => exact placed.put rfl rfl rfl (by rw [position]; rfl) rfl
  | signalOne =>
    exact placed.quiet same fun u p has =>
      of_update QueuePc.hand (.inl rfl) u p (of_update QueuePc.hand (.inl rfl) u p has)
  | broadcast => exact placed.quiet same (of_wakeAll QueuePc.hand rfl rfl)
  | release => exact placed.quiet same (of_update QueuePc.hand (.inl rfl))
  | @unlink t q take p position first =>
    -- The page leaves its list and comes into the hand of the pop in the same step.
    obtain ⟨rest, content⟩ := (chain q).of_head first
    have here : p ∈ (s.queue q).content := by simp [content]
    have after : p ∉ rest := (List.nodup_cons.mp (content ▸ (chain q).nodup)).1
    refine placed.take rfl (fun r x member => ?_) rfl
      (fun u hand => placed.outside u p hand q here) fun r member => ?_
    · by_cases mine : r = q
      · subst mine
        simp only [Function.update_self] at member
        exact List.mem_of_mem_tail member
      · simpa only [Function.update_of_ne mine] using member
    · by_cases mine : r = q
      · subst mine
        simp only [Function.update_self, content, List.tail_cons] at member
        exact after member
      · simp only [Function.update_of_ne mine] at member
        exact mine (placed.apart r q p member here)

end OnePlace

/-! ## The links -/

/-- The links are those of the lists, and the link of a page that is about to be pushed is
cleared. -/
structure Threaded (s : Queues n) : Prop where
  chain : ∀ q, Chain s.qnext (s.queue q).head (s.queue q).content
  cleared : ∀ t p, (s.pc t).cleared = some p → s.qnext p = none

namespace Threaded

/-- No link is written and no list changes. -/
theorem quiet (threaded : Threaded s) (links : s'.qnext = s.qnext)
    (heads : ∀ q, (s'.queue q).head = (s.queue q).head)
    (contents : ∀ q, (s'.queue q).content = (s.queue q).content)
    (less : ∀ t p, (s'.pc t).cleared = some p → (s.pc t).cleared = some p) : Threaded s' where
  chain q := by
    rw [links, heads, contents]
    exact threaded.chain q
  cleared t p cleared := by
    rw [links]
    exact threaded.cleared t p (less t p cleared)

/-- The link of a page in the hand of a call is cleared. -/
theorem clear (threaded : Threaded s) (placed : OnePlace s) {t : Fin n} {p : Nat} {pc : QueuePc}
    (hand : (s.pc t).hand = some p) (less : ∀ r, pc.cleared = some r → r = p) :
    Threaded { s with qnext := update s.qnext p none, pc := update s.pc t pc } where
  chain q := (threaded.chain q).update (placed.outside t p hand q) none
  cleared u r cleared := by
    by_cases same : r = p
    -- Only the page in the hand of `t` has a new link, and it is on no list.
    · subst same
      exact Function.update_self _ _ _
    · have other : u ≠ t := by
        rintro rfl
        simp only [Function.update_self] at cleared
        exact same (less r cleared)
      simp only [Function.update_of_ne other] at cleared
      simp only [Function.update_of_ne same]
      exact threaded.cleared u r cleared

section Link

variable {t : Fin n} {q : QueueId} {p : Nat} (threaded : Threaded s)
  (position : s.pc t = .link q p)
include threaded position

theorem linkFirst (empty : (s.queue q).content = []) :
    Threaded
      { s with
        queue := update s.queue q
          { s.queue q with
            head := some p
            content := (s.queue q).content ++ [p]
            pushed := (s.queue q).pushed ++ [p] }
        pc := update s.pc t (.setTail q p) } where
  chain r := by
    by_cases mine : r = q
    · subst mine
        -- The link of a page that is about to be pushed is cleared, so the list ends there.
      simp only [Function.update_self, empty, List.nil_append]
      exact ⟨rfl, threaded.cleared t p (by rw [position]; rfl)⟩
    · simp only [Function.update_of_ne mine]
      exact threaded.chain r
  cleared u r cleared :=
    threaded.cleared u r (of_update QueuePc.cleared (.inl rfl) u r cleared)

theorem linkLast (placed : OnePlace s) {last : Nat} {init : List Nat}
    (used : (s.queue q).content = init ++ [last]) :
    Threaded
      { s with
        qnext := update s.qnext last (some p)
        queue := update s.queue q
          { s.queue q with
            content := (s.queue q).content ++ [p]
            pushed := (s.queue q).pushed ++ [p] }
        pc := update s.pc t (.setTail q p) } := by
  have hand : (s.pc t).hand = some p := by rw [position]; rfl
  -- The page that gets a link is the last of this list: it is on no other list and in no hand.
  have here : last ∈ (s.queue q).content := by simp [used]
  have differs : last ≠ p := fun same => placed.outside t p hand q (same ▸ here)
  constructor
  · intro r
    by_cases mine : r = q
    · subst mine
      have linked : Chain s.qnext (s.queue r).head (init ++ last :: []) := used ▸ threaded.chain r
      have tail : Chain s.qnext (some p) [p] :=
        ⟨rfl, threaded.cleared t p (by rw [position]; rfl)⟩
      have longer := linked.redirect tail (by simpa using differs)
      simpa [used] using longer
    · simp only [Function.update_of_ne mine]
      exact (threaded.chain r).update (fun there => mine (placed.apart r q last there here)) _
  · intro u r cleared
    have before := of_update QueuePc.cleared (.inl rfl) u r cleared
    have other : r ≠ last := fun same =>
      placed.outside u r (QueuePc.hand_of_cleared before) q (same ▸ here)
    simp only [Function.update_of_ne other]
    exact threaded.cleared u r before

end Link

/-- The head moves on to the next page. -/
theorem unlink (threaded : Threaded s) {t : Fin n} {q : QueueId} {take : Take} {p : Nat}
    {rest : List Nat} (content : (s.queue q).content = p :: rest) :
    Threaded
      { s with
        queue := update s.queue q
          { s.queue q with
            head := s.qnext p
            content := (s.queue q).content.tail
            popped := (s.queue q).popped ++ [(p, t)] }
        pc := update s.pc t (.clearTail q take p) } where
  chain r := by
    by_cases mine : r = q
    · subst mine
      simp only [Function.update_self, content, List.tail_cons]
      have chain := threaded.chain r
      rw [content] at chain
      exact chain.2
    · simp only [Function.update_of_ne mine]
      exact threaded.chain r
  cleared u r cleared :=
    threaded.cleared u r (of_update QueuePc.cleared (.inl rfl) u r cleared)

theorem step (threaded : Threaded s) (placed : OnePlace s)
    (tails : ∀ t q p, s.pc t = .link q p → (s.queue q).tail = (s.queue q).content.getLast?)
    (move : QueueMove base s label s') : Threaded s' := by
  have same : ∀ q, (s.queue q).content = (s.queue q).content := fun _ => rfl
  have heads : ∀ {q queue}, queue.head = (s.queue q).head →
      ∀ r, (update s.queue q queue r).head = (s.queue r).head := fun equal r =>
    congrFun (map_update_same (f := NoxQueue.head) equal) r
  cases move with
  | @call t label pc position starts =>
    obtain ⟨-, uncleared, -⟩ := QueueLabel.of_start starts
    exact threaded.quiet rfl (fun _ => rfl) same (of_update QueuePc.cleared (.inl uncleared))
  | clear position =>
    exact threaded.clear placed (by rw [position]; rfl) fun r cleared =>
      (Option.some.inj cleared).symm
  | clearNext position =>
    exact threaded.clear placed (by rw [position]; rfl) fun r cleared => nomatch cleared
  -- The tail is the last of the list when the push tests it, so the test is whether it is empty.
  | linkFirst position empty =>
    have last := (tails _ _ _ position).symm.trans empty
    exact threaded.linkFirst position (List.getLast?_eq_none_iff.mp last)
  | linkLast position used =>
    have last := (tails _ _ _ position).symm.trans used
    obtain ⟨init, content⟩ := List.getLast?_eq_some_iff.mp last
    exact threaded.linkLast position placed content
  | unlink position first =>
    obtain ⟨rest, content⟩ := (threaded.chain _).of_head first
    exact threaded.unlink content
  | signalNone | sleep | go | hit | miss | nothing | readDepth | spurious | release =>
    exact threaded.quiet rfl (fun _ => rfl) same (of_update QueuePc.cleared (.inl rfl))
  | setTail | incDepth | clearTail | decDepth | setShutdown =>
    exact threaded.quiet rfl (heads rfl) (content_update rfl)
      (of_update QueuePc.cleared (.inl rfl))
  | acquire position =>
    obtain ⟨-, -, -, cleared⟩ := QueuePc.of_entering position
    exact threaded.quiet rfl (heads rfl) (content_update rfl)
      (of_update QueuePc.cleared (.inr cleared))
  | signalOne =>
    exact threaded.quiet rfl (fun _ => rfl) same fun u p has =>
      of_update QueuePc.cleared (.inl rfl) u p (of_update QueuePc.cleared (.inl rfl) u p has)
  | broadcast =>
    exact threaded.quiet rfl (fun _ => rfl) same (of_wakeAll QueuePc.cleared rfl rfl)

end Threaded

/-! ## The critical sections -/

namespace NoxQueue

/-- Tail and depth are those of the list. -/
def Settled (queue : NoxQueue n) : Prop :=
  queue.tail = queue.content.getLast? ∧ queue.depth = queue.content.length

/-- Thread `t` took the page that was first when it got the mutex, of the base it wanted. -/
def Took (base : Nat → Nat) (queue : NoxQueue n) (t : Fin n) (take : Take) (p : Nat) : Prop :=
  queue.entry = p :: queue.content ∧ (∀ want, take = .ifBase want → base p = want) ∧
    queue.popped.getLast? = some (p, t)

/-- What thread `t` has done in its critical section. -/
def Stage (base : Nat → Nat) (queue : NoxQueue n) (t : Fin n) : QueuePc → Prop
  | .link _ _ | .test _ | .testBase _ _ | .setShutdown _ | .readDepth _ =>
    queue.Settled ∧ queue.content = queue.entry
  | .setTail _ p =>
    queue.content = queue.entry ++ [p] ∧ queue.tail = queue.entry.getLast? ∧
      queue.depth = queue.entry.length
  | .incDepth _ p =>
    queue.content = queue.entry ++ [p] ∧ queue.tail = some p ∧ queue.depth = queue.entry.length
  | .signal _ p | .unlockPush _ p => queue.Settled ∧ queue.content = queue.entry ++ [p]
  | .unlinkHead _ .any =>
    queue.Settled ∧ queue.content = queue.entry ∧ (queue.head ≠ none ∨ queue.shutdown = true)
  | .unlinkHead _ (.ifBase want) =>
    queue.Settled ∧ queue.content = queue.entry ∧ ∃ p, queue.head = some p ∧ base p = want
  | .clearTail _ take p =>
    queue.Took base t take p ∧ queue.tail = queue.entry.getLast? ∧ queue.depth = queue.entry.length
  | .decDepth _ take p =>
    queue.Took base t take p ∧ queue.tail = queue.content.getLast? ∧
      queue.depth = queue.entry.length
  | .clearNext _ take p | .unlockPop _ take (some p) => queue.Took base t take p ∧ queue.Settled
  | .unlockPop _ .any none =>
    queue.content = queue.entry ∧ queue.entry = [] ∧ queue.shutdown = true ∧ queue.Settled
  | .unlockPop _ (.ifBase want) none =>
    queue.content = queue.entry ∧ (∀ p, queue.entry.head? = some p → base p ≠ want) ∧ queue.Settled
  | .broadcast _ | .unlockShutdown _ =>
    queue.content = queue.entry ∧ queue.shutdown = true ∧ queue.Settled
  | .unlockDepth _ depth =>
    queue.content = queue.entry ∧ depth = queue.content.length ∧ queue.Settled
  | _ => True

variable {queue : NoxQueue n} {t : Fin n} {pc : QueuePc} {q : QueueId}

theorem Stage.settled (stage : queue.Stage base t pc) (leaving : pc.leaving = some q) :
    queue.Settled := by
  cases pc with
  | unlockPush => exact stage.1
  | unlockPop q take result =>
    cases result with
    | some p => exact stage.2
    | none =>
      cases take with
      | any => exact stage.2.2.2
      | ifBase want => exact stage.2.2
  | unlockShutdown | unlockDepth => exact stage.2.2
  | _ => cases leaving

theorem Settled.stage (settled : queue.Settled) (same : queue.content = queue.entry)
    {before : QueuePc} (entering : before.entering = some (q, pc)) : queue.Stage base t pc := by
  cases before with
  | lockPush | lockPop | lockPopIf | lockShutdown | lockDepth =>
    cases entering
    exact ⟨settled, same⟩
  | _ => cases entering

end NoxQueue

/-- Queues are consistent while nobody has their mutex, and otherwise as far as its owner has
come. -/
structure Sectioned (base : Nat → Nat) (s : Queues n) : Prop where
  settled : ∀ q, s.lock q = none → (s.queue q).Settled
  staged : ∀ t q, (s.pc t).holds = some q → (s.queue q).Stage base t (s.pc t)

namespace Sectioned

variable {t : Fin n} {q : QueueId}

theorem stage (sectioned : Sectioned base s) {pc : QueuePc} (position : s.pc t = pc)
    (holds : pc.holds = some q) : (s.queue q).Stage base t pc := by
  subst position
  exact sectioned.staged t q holds

/-- Who has a mutex is not the thread that has moved on outside. -/
theorem pc_of_holds {pc : QueuePc} (outside : pc.holds = none) (u : Fin n) (r : QueueId)
    (holds : (update s.pc t pc u).holds = some r) : update s.pc t pc u = s.pc u := by
  by_cases mine : u = t
  · subst mine
    simp [outside] at holds
  · exact Function.update_of_ne mine _ _

/-- Nobody in a critical section moves. -/
theorem quiet (sectioned : Sectioned base s) (queues : s'.queue = s.queue) (lock : s'.lock = s.lock)
    (pcs : ∀ u r, (s'.pc u).holds = some r → s'.pc u = s.pc u) : Sectioned base s' where
  settled r free := by
    rw [queues]
    exact sectioned.settled r (lock ▸ free)
  staged u r holds := by
    have same := pcs u r holds
    rw [same] at holds ⊢
    rw [queues]
    exact sectioned.staged u r holds

/-- The owner of the mutex goes on. -/
theorem inside (sectioned : Sectioned base s) (locked : Consistent s.lock fun t => (s.pc t).holds)
    (holds : (s.pc t).holds = some q) (lock : s'.lock = s.lock)
    (queues : ∀ r, r ≠ q → s'.queue r = s.queue r)
    (others : ∀ u, u ≠ t → ∀ r, (s'.pc u).holds = some r → s'.pc u = s.pc u)
    (stays : (s'.pc t).holds = some q) (stage : (s'.queue q).Stage base t (s'.pc t)) :
    Sectioned base s' where
  settled r free := by
    -- The mutex of a free queue is not the one the owner has.
    have other : r ≠ q := by
      rintro rfl
      rw [lock, (locked r t).mpr holds] at free
      cases free
    rw [queues r other]
    exact sectioned.settled r (lock ▸ free)
  staged u r holdsToo := by
    by_cases mine : u = t
    · subst mine
      obtain rfl := Option.some.inj (stays.symm.trans holdsToo)
      exact stage
    · have same := others u mine r holdsToo
      rw [same] at holdsToo ⊢
      -- Two threads inside have two mutexes, so the other queue has not changed.
      have other : r ≠ q := by
        rintro rfl
        exact mine (locked.exclusive holdsToo holds)
      rw [queues r other]
      exact sectioned.staged u r holdsToo

theorem enter (sectioned : Sectioned base s) (locked : Consistent s.lock fun t => (s.pc t).holds)
    {pc : QueuePc} (entering : (s.pc t).entering = some (q, pc)) (free : s.lock q = none) :
    Sectioned base
      { s with
        queue := update s.queue q { s.queue q with entry := (s.queue q).content }
        lock := update s.lock q (some t)
        pc := update s.pc t pc } where
  settled r unlocked := by
    by_cases same : r = q
    · subst same
      simp at unlocked
    · simp only [Function.update_of_ne same] at unlocked ⊢
      exact sectioned.settled r unlocked
  staged u r holds := by
    -- What follows the lock begins with the list as it was found.
    obtain ⟨-, after, -⟩ := QueuePc.of_entering entering
    by_cases mine : u = t
    · subst mine
      simp only [Function.update_self] at holds ⊢
      obtain rfl := Option.some.inj (after.symm.trans holds)
      rw [Function.update_self]
      exact NoxQueue.Settled.stage (sectioned.settled q free) rfl entering
    · simp only [Function.update_of_ne mine] at holds ⊢
      have other : r ≠ q := by
        rintro rfl
        exact locked.not_held_of_free free u holds
      rw [Function.update_of_ne other]
      exact sectioned.staged u r holds

theorem leave (sectioned : Sectioned base s) {pc : QueuePc} (settled : (s.queue q).Settled)
    (outside : pc.holds = none) :
    Sectioned base { s with lock := update s.lock q none, pc := update s.pc t pc } where
  settled r unlocked := by
    by_cases same : r = q
    · subst same
      exact settled
    · simp only [Function.update_of_ne same] at unlocked
      exact sectioned.settled r unlocked
  staged u r holdsToo := by
    by_cases mine : u = t
    · subst mine
      simp [outside] at holdsToo
    · simp only [Function.update_of_ne mine] at holdsToo ⊢
      exact sectioned.staged u r holdsToo

/-- A step of the owner that changes nobody else. -/
theorem own (sectioned : Sectioned base s) (locked : Consistent s.lock fun t => (s.pc t).holds)
    {pc : QueuePc} {queue : NoxQueue n} (qnext : Nat → Option Nat)
    (holds : (s.pc t).holds = some q) (stays : pc.holds = some q)
    (stage : queue.Stage base t pc) :
    Sectioned base
      { qnext, queue := update s.queue q queue, lock := s.lock, pc := update s.pc t pc } := by
  refine sectioned.inside locked holds rfl (fun r other => Function.update_of_ne other _ _)
    (fun u other r _ => Function.update_of_ne other _ _) ?_ ?_
  · simpa using stays
  · simpa using stage

/-- The same where the queue stays as it is. -/
theorem pass (sectioned : Sectioned base s) (locked : Consistent s.lock fun t => (s.pc t).holds)
    {pc : QueuePc} (qnext : Nat → Option Nat) (holds : (s.pc t).holds = some q)
    (stays : pc.holds = some q) (stage : (s.queue q).Stage base t pc) :
    Sectioned base { s with qnext, pc := update s.pc t pc } := by
  have owned := sectioned.own locked qnext holds stays stage
  rwa [Function.update_eq_self] at owned

/-- The step that takes a page off the head. -/
theorem unlink_stage {queue : NoxQueue n} {take : Take} {p : Nat} {rest : List Nat}
    {next : Option Nat} (before : queue.Stage base t (.unlinkHead q take))
    (first : queue.head = some p) (content : queue.content = p :: rest) :
    NoxQueue.Stage base
      { queue with
        head := next
        content := queue.content.tail
        popped := queue.popped ++ [(p, t)] } t (.clearTail q take p) := by
  have settled : queue.Settled ∧ queue.content = queue.entry ∧
      ∀ want, take = .ifBase want → base p = want := by
    -- A pop with a base has looked at the head under the same mutex.
    cases take with
    | any => exact ⟨before.1, before.2.1, fun _ none_ => nomatch none_⟩
    | ifBase want =>
      obtain ⟨settled, same, p', first', wanted⟩ := before
      obtain rfl := Option.some.inj (first.symm.trans first')
      refine ⟨settled, same, ?_⟩
      rintro want' ⟨⟩
      exact wanted
  obtain ⟨⟨tail, depth⟩, same, wanted⟩ := settled
  refine ⟨⟨?_, wanted, by simp⟩, same ▸ tail, same ▸ depth⟩
  simp only [content, List.tail_cons]
  rw [← same, content]

/-- The step that clears the tail of a queue that has become empty. -/
theorem clearTail_stage {queue : NoxQueue n} {take : Take} {p : Nat}
    (before : queue.Stage base t (.clearTail q take p)) (start : queue.head = queue.content.head?) :
    NoxQueue.Stage base { queue with tail := if queue.head = none then none else queue.tail } t
      (.decDepth q take p) := by
  obtain ⟨took, tail, depth⟩ := before
  refine ⟨took, ?_, depth⟩
  have entry := took.1
  -- The tail stays unless the page that was taken was the only one.
  simp only [start]
  cases content : queue.content with
  | nil => simp
  | cons next rest =>
    rw [if_neg (by simp), tail, entry, content, List.getLast?_cons_cons]

theorem step (sectioned : Sectioned base s) (locked : Consistent s.lock fun t => (s.pc t).holds)
    (chain : ∀ q, Chain s.qnext (s.queue q).head (s.queue q).content)
    (move : QueueMove base s label s') : Sectioned base s' := by
  cases move with
  | call position starts =>
    exact sectioned.quiet rfl rfl (pc_of_holds (QueueLabel.of_start starts).1)
  | clear | spurious => exact sectioned.quiet rfl rfl (pc_of_holds rfl)
  | acquire position free => exact sectioned.enter locked position free
  | release position =>
    have holds := QueuePc.holds_of_leaving position
    exact sectioned.leave ((sectioned.staged _ _ holds).settled position) rfl
  | sleep position => exact sectioned.leave (sectioned.stage position rfl).1 rfl
  -- Tail and depth are behind the list from here to the end of the push.
  | linkFirst position | linkLast position =>
    obtain ⟨⟨tail, depth⟩, same⟩ := sectioned.stage position rfl
    refine sectioned.own locked _ (by rw [position]; rfl) rfl ⟨?_, same ▸ tail, same ▸ depth⟩
    exact congrArg (· ++ [_]) same
  | setTail position =>
    obtain ⟨content, tail, depth⟩ := sectioned.stage position rfl
    exact sectioned.own locked _ (by rw [position]; rfl) rfl ⟨content, rfl, depth⟩
  | incDepth position =>
    obtain ⟨content, tail, depth⟩ := sectioned.stage position rfl
    refine sectioned.own locked _ (by rw [position]; rfl) rfl ⟨⟨?_, ?_⟩, content⟩
    · simp [content, tail]
    · simp [content, depth]
  | signalNone position =>
    have stage := sectioned.stage position rfl
    exact sectioned.pass locked _ (by rw [position]; rfl) rfl stage
  | @signalOne t q p u position =>
    -- The sleeper that is woken is outside, so the owner alone moves inside.
    have stage := sectioned.stage position rfl
    refine sectioned.inside locked (by rw [position]; rfl) rfl (fun _ _ => rfl)
      (fun v other r holds => ?_) ?_ ?_
    · simp only [Function.update_of_ne other] at holds ⊢
      exact pc_of_holds rfl v r holds
    · simp only [Function.update_self]
      rfl
    · simp only [Function.update_self]
      exact stage
  | @broadcast t q position =>
    have stage := sectioned.stage position rfl
    refine sectioned.inside locked (by rw [position]; rfl) rfl (fun _ _ => rfl)
      (fun v other r holds => ?_) ?_ ?_
    -- A thread that has a mutex is not asleep.
    · simp only [Function.update_of_ne other] at holds ⊢
      by_cases sleeps : s.pc v = .asleep q
      · rw [if_pos sleeps] at holds
        cases holds
      · rw [if_neg sleeps]
    · simp only [Function.update_self]
      rfl
    · simp only [Function.update_self]
      exact stage
  | go position ready =>
    obtain ⟨settled, same⟩ := sectioned.stage position rfl
    exact sectioned.pass locked _ (by rw [position]; rfl) rfl ⟨settled, same, ready⟩
  | hit position first wanted =>
    obtain ⟨settled, same⟩ := sectioned.stage position rfl
    exact sectioned.pass locked _ (by rw [position]; rfl) rfl ⟨settled, same, _, first, wanted⟩
  | miss position unwanted =>
    obtain ⟨settled, same⟩ := sectioned.stage position rfl
    refine sectioned.pass locked _ (by rw [position]; rfl) rfl ⟨same, fun p first => ?_, settled⟩
    exact unwanted p ((chain _).head_eq.trans (same ▸ first))
  | @nothing t q take position empty =>
    have none_ : (s.queue q).content = [] := (empty ▸ chain q).eq_nil
    have stage := sectioned.stage position rfl
    cases take with
    -- Nothing to take means that the queue was shut down: otherwise the pop would have slept.
    | any =>
      obtain ⟨settled, same, ready⟩ := stage
      exact sectioned.pass locked _ (by rw [position]; rfl) rfl
        ⟨same, same ▸ none_, ready.resolve_left (not_not.mpr empty), settled⟩
    | ifBase want =>
      -- `nox_queue_pop_if_base` has seen a head and nobody can have taken it since.
      obtain ⟨-, -, p, first, -⟩ := stage
      simp [empty] at first
  | @unlink t q take p position first =>
    obtain ⟨rest, content⟩ := (chain q).of_head first
    exact sectioned.own locked _ (by rw [position]; rfl) rfl
      (unlink_stage (sectioned.stage position rfl) first content)
  | clearTail position =>
    exact sectioned.own locked _ (by rw [position]; rfl) rfl
      (clearTail_stage (sectioned.stage position rfl) (chain _).head_eq)
  | decDepth position =>
    obtain ⟨took, tail, depth⟩ := sectioned.stage position rfl
    refine sectioned.own locked _ (by rw [position]; rfl) rfl ⟨took, tail, ?_⟩
    simp only [depth, took.1, List.length_cons, Nat.add_sub_cancel]
  | clearNext position =>
    have stage := sectioned.stage position rfl
    exact sectioned.pass locked _ (by rw [position]; rfl) rfl stage
  | setShutdown position =>
    obtain ⟨settled, same⟩ := sectioned.stage position rfl
    exact sectioned.own locked _ (by rw [position]; rfl) rfl ⟨same, rfl, settled⟩
  | readDepth position =>
    obtain ⟨settled, same⟩ := sectioned.stage position rfl
    exact sectioned.pass locked _ (by rw [position]; rfl) rfl ⟨same, settled.2, settled⟩

end Sectioned

/-! ## The history -/

/-- The list is what was pushed and not popped. -/
def NoxQueue.Recorded (queue : NoxQueue n) : Prop :=
  queue.pushed = queue.popped.map Prod.fst ++ queue.content

theorem recorded_step (recorded : ∀ q, (s.queue q).Recorded)
    (chain : ∀ q, Chain s.qnext (s.queue q).head (s.queue q).content)
    (move : QueueMove base s label s') : ∀ q, (s'.queue q).Recorded := by
  -- Only the lists with their histories count.
  have changed : ∀ {q queue}, queue.Recorded → ∀ r, (update s.queue q queue r).Recorded := by
    intro q queue new r
    by_cases same : r = q
    · subst same
      rwa [Function.update_self]
    · rw [Function.update_of_ne same]
      exact recorded r
  cases move with
  | call | clear | signalOne | signalNone | sleep | go | hit | miss | nothing | clearNext
  | broadcast | readDepth | release | spurious => exact recorded
  | @acquire t q | @setTail t q | @incDepth t q | @clearTail t q | @decDepth t q
  | @setShutdown t q => exact changed (recorded q)
  | @linkFirst t q | @linkLast t q =>
    refine changed ?_
    have old : (s.queue q).pushed = _ := recorded q
    rw [NoxQueue.Recorded, old, List.append_assoc]
  | @unlink t q take p position first =>
    refine changed ?_
    obtain ⟨rest, content⟩ := (chain q).of_head first
    have old : (s.queue q).pushed = _ := recorded q
    rw [NoxQueue.Recorded, old, content]
    simp

/-! ## All of it -/

/-- The invariant of the queues. -/
structure Fifo (base : Nat → Nat) (s : Queues n) : Prop where
  locked : Consistent s.lock fun t => (s.pc t).holds
  placed : OnePlace s
  threaded : Threaded s
  sectioned : Sectioned base s
  recorded : ∀ q, (s.queue q).Recorded

theorem Fifo.create (qnext : Nat → Option Nat) : Fifo base (Queues.create n qnext) where
  locked q t := by simp [Queues.create, QueuePc.holds]
  placed := by constructor <;> simp [Queues.create, QueuePc.hand]
  threaded := by constructor <;> simp [Queues.create, QueuePc.cleared, Chain]
  sectioned := by constructor <;> simp [Queues.create, QueuePc.holds, NoxQueue.Settled]
  recorded q := rfl

theorem Fifo.step (fifo : Fifo base s) (unqueued : Unqueued s label)
    (move : QueueMove base s label s') : Fifo base s' where
  locked := queueLocked_step fifo.locked move
  placed := fifo.placed.step fifo.threaded.chain unqueued move
  threaded := by
    refine fifo.threaded.step fifo.placed (fun t q p position => ?_) move
    have stage := fifo.sectioned.stage position rfl
    exact stage.1.1
  sectioned := fifo.sectioned.step fifo.locked fifo.threaded.chain move
  recorded := recorded_step fifo.recorded fifo.threaded.chain move

theorem fifo_of_run {qnext : Nat → Option Nat}
    (run : Run (Queues.step base) Unqueued (Queues.create n qnext) s) : Fifo base s :=
  run.invariant (Fifo base) (.create qnext) fun fifo unqueued stepped =>
    fifo.step unqueued (queueMove_of_step stepped)

end NoxDB

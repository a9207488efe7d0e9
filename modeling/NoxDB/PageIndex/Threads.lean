import NoxDB.PageIndex
import NoxDB.Library.Locks

/-! # The page index, statement by statement

The functions of `page_index.c` as any number of threads run them at once.  A call holds the
mutex of its shard while it walks a chain and writes links; `page_index_get_or_create` takes the
lock of the page it found before it gives the shard up.  Beside these calls a thread takes and
gives up locks of pages that it knows from elsewhere, and frees pages that were detached.

`effects` and `returned` are histories that no step reads.
-/

namespace NoxDB

open Function (update)
open Library.Links
open Library.Runs

variable {n : Nat}

/-- The calls that take a page off its chain. -/
inductive Removal
  | detachIf (base expect : Nat)
  | remove (base : Nat)
deriving DecidableEq, Repr

namespace Removal

def base : Removal → Nat
  | .detachIf base _ | .remove base => base

/-- The comparison in the loop. -/
def wants (bases : Nat → Nat) : Removal → Nat → Bool
  | .detachIf _ expect, p => p == expect
  | .remove base, p => bases p == base

def op : Removal → IndexOp
  | .detachIf base expect => .detachIf base expect
  | .remove base => .remove base

/-- What the call returns when the loop ends without a match. -/
def missed : Removal → IndexAnswer
  | .detachIf _ _ => .unlinked false
  | .remove _ => .done

end Removal

inductive IndexCall
  | getOrCreate (base : Nat)
  | removal (call : Removal)
deriving DecidableEq, Repr

def IndexCall.base : IndexCall → Nat
  | .getOrCreate base => base
  | .removal call => call.base

/-- Where a thread is: before the named statement of its call. -/
inductive IndexPc
  | idle
  | lockShard (call : IndexCall)
  /-- `p = idx->buckets[b]` -/
  | start (base : Nat)
  /-- `p`, and `p->base == base` if it is not `NULL`. -/
  | compare (base : Nat) (p : Option Nat)
  /-- `p = p->next` -/
  | next (base p : Nat)
  | alloc (base : Nat)
  /-- `p->next = idx->buckets[b]` -/
  | setNext (base p : Nat)
  /-- `idx->buckets[b] = p` -/
  | setHead (base p : Nat)
  /-- `pthread_mutex_lock(&p->lock)`, in the loop or for the page that was created. -/
  | lockPage (base p : Nat) (created : Bool)
  /-- `*link`, and the comparison if it is not `NULL`. -/
  | scan (call : Removal) (link : Slot Nat)
  /-- `*link = victim->next` -/
  | unlink (call : Removal) (link : Slot Nat) (victim : Nat)
  /-- `expect->next = NULL` -/
  | clearNext (base expect : Nat)
  | unlockShard (base : Nat) (op : IndexOp) (answer : IndexAnswer)
  /-- The unlock of `page_index_remove` that its `scrap_page_free` follows. -/
  | unlockVictim (base victim : Nat)
  | freeVictim (base victim : Nat)
  /-- Outside the index, with the lock of a page. -/
  | inside (p : Nat)
deriving DecidableEq, Repr

/-- The page that the next statement frees. -/
def IndexPc.freed : IndexPc → Option Nat
  | .freeVictim _ victim => some victim
  | _ => none

/-- The first statement of a call inside its shard. -/
def IndexCall.first : IndexCall → IndexPc
  | .getOrCreate base => .start base
  | .removal call => .scan call .head

structure IndexThreads (n : Nat) where
  index : PageIndex
  shards : Nat → Option (Fin n)
  lock : Nat → Option (Fin n)
  pc : Fin n → IndexPc
  /-- The calls that have taken effect, the last one first. -/
  effects : List (Fin n × IndexOp × IndexAnswer)
  /-- The calls of a thread that have returned, the last one first. -/
  returned : Fin n → List (IndexOp × IndexAnswer)

/-- A call, the next statement of a thread, `scrap_page_alloc` with the answer of the allocator, the
lock of a page that is not taken through the index, and `scrap_page_free` of a detached page. -/
inductive IndexLabel (n : Nat)
  | call (t : Fin n) (call : IndexCall)
  | step (t : Fin n)
  | alloc (t : Fin n) (memory : Option Nat)
  | lockPage (t : Fin n) (p : Nat)
  | unlockPage (t : Fin n)
  | free (t : Fin n) (p : Nat)
deriving DecidableEq, Repr

namespace IndexThreads

/-- `page_index_create` -/
def create (n : Nat) : IndexThreads n where
  index := .create
  shards := fun _ => none
  lock := fun _ => none
  pc := fun _ => .idle
  effects := []
  returned := fun _ => []

def setPc (s : IndexThreads n) (t : Fin n) (pc : IndexPc) : IndexThreads n :=
  { s with pc := update s.pc t pc }

/-- The call of `t` takes effect. -/
def effect (s : IndexThreads n) (t : Fin n) (op : IndexOp) (answer : IndexAnswer) :
    IndexThreads n :=
  { s with effects := (t, op, answer) :: s.effects }

/-- The call of `t` returns. -/
def ret (s : IndexThreads n) (t : Fin n) (op : IndexOp) (answer : IndexAnswer) : IndexThreads n :=
  { s with returned := update s.returned t ((op, answer) :: s.returned t) }

/-- The page that a call of `page_index_detach_if` hands to its caller. -/
def given : IndexOp → IndexAnswer → Option Nat
  | .detachIf _ expect, .unlinked true => some expect
  | _, _ => none

/-- Where a thread is once its call has returned. -/
def back : IndexAnswer → IndexPc
  | .page p _ => .inside p
  | _ => .idle

/-- The next statement of thread `t`. -/
def advance (s : IndexThreads n) (t : Fin n) : Option (IndexThreads n) :=
  match s.pc t with
  | .lockShard call =>
    if s.shards (piShard (piHash call.base)) = none then
      some { s.setPc t call.first with
        shards := update s.shards (piShard (piHash call.base)) (some t) }
    else none
  | .start base => some (s.setPc t (.compare base (s.index.buckets (piHash base))))
  | .compare base none => some (s.setPc t (.alloc base))
  -- A lookup takes effect here; no other thread can unlink the page before its lock is taken.
  | .compare base (some p) =>
    if s.index.base p = base then
      some ((s.effect t (.getOrCreate base none) (.page p false)).setPc t (.lockPage base p false))
    else some (s.setPc t (.next base p))
  | .next base p => some (s.setPc t (.compare base (s.index.next p)))
  | .setNext base p =>
    some { s.setPc t (.setHead base p) with
      index := { s.index with
        next := update s.index.next p (s.index.buckets (piHash base)) } }
  -- The new page can be found from here on.
  | .setHead base p =>
    some { (s.effect t (.getOrCreate base (some p)) (.page p true)).setPc t
        (.lockPage base p true) with
      index := { s.index with buckets := update s.index.buckets (piHash base) (some p) } }
  | .lockPage base p created =>
    if s.lock p = none then
      some { s.setPc t (.unlockShard base
          (.getOrCreate base (if created then some p else none)) (.page p created)) with
        lock := update s.lock p (some t) }
    else none
  | .scan call link =>
    match link.load s.index.next (s.index.buckets (piHash call.base)) with
    | none =>
      some ((s.effect t call.op call.missed).setPc t (.unlockShard call.base call.op call.missed))
    | some p =>
      if call.wants s.index.base p then some (s.setPc t (.unlink call link p))
      else some (s.setPc t (.scan call (.after p)))
  -- The page cannot be found any more.
  | .unlink call link victim =>
    let index := s.index.store (piHash call.base) link (s.index.next victim)
    match call with
    | .detachIf base expect =>
      some { (s.effect t (.detachIf base expect) (.unlinked true)).setPc t
        (.clearNext base expect) with index := index }
    | .remove base =>
      some { (s.effect t (.remove base) .done).setPc t (.unlockVictim base victim) with
        index := index }
  | .clearNext base expect =>
    some { s.setPc t (.unlockShard base (.detachIf base expect) (.unlinked true)) with
      index := { s.index with next := update s.index.next expect none } }
  | .unlockShard base op answer =>
    some { (s.ret t op answer).setPc t (back answer) with
      shards := update s.shards (piShard (piHash base)) none
      index := { s.index with owned := (given op answer).toList ++ s.index.owned } }
  | .unlockVictim base victim =>
    some { s.setPc t (.freeVictim base victim) with
      shards := update s.shards (piShard (piHash base)) none }
  | .freeVictim base victim =>
    some { (s.ret t (.remove base) .done).setPc t .idle with index := s.index.release victim }
  -- Outside a call, or at the call that has a label of its own.
  | .idle | .inside _ | .alloc _ => none

/-- `scrap_page_alloc`: the allocator hands out memory that is not in use. -/
def allocStep (s : IndexThreads n) (t : Fin n) (memory : Option Nat) : Option (IndexThreads n) :=
  match s.pc t, memory with
  | .alloc base, none =>
    some ((s.effect t (.getOrCreate base none) .null).setPc t
      (.unlockShard base (.getOrCreate base none) .null))
  | .alloc base, some p =>
    if p ∈ s.index.live then none
    else
      some { s.setPc t (.setNext base p) with
        index := { s.index with
          base := update s.index.base p base
          next := update s.index.next p none
          live := p :: s.index.live } }
  | _, _ => none

def step (s : IndexThreads n) : IndexLabel n → Option (IndexThreads n)
  | .call t call => if s.pc t = .idle then some (s.setPc t (.lockShard call)) else none
  | .step t => s.advance t
  | .alloc t memory => s.allocStep t memory
  | .lockPage t p =>
    if s.pc t = .idle ∧ s.lock p = none then
      some { s.setPc t (.inside p) with lock := update s.lock p (some t) }
    else none
  | .unlockPage t =>
    match s.pc t with
    | .inside p => some { s.setPc t .idle with lock := update s.lock p none }
    | _ => none
  | .free t p =>
    if s.pc t = .idle ∧ p ∈ s.index.owned then
      some { (s.effect t (.free p) .done).ret t (.free p) .done with index := s.index.release p }
    else none

/-- What callers have to keep to: they take the lock of a page that is allocated, and free a page
whose lock nobody has. -/
def Careful (s : IndexThreads n) : IndexLabel n → Prop
  | .lockPage _ p => p ∈ s.index.live
  | .free _ p => s.lock p = none
  | .step t => ∀ victim ∈ (s.pc t).freed, s.lock victim = none
  | .call _ _ | .alloc _ _ | .unlockPage _ => True

instance (s : IndexThreads n) (label : IndexLabel n) : Decidable (s.Careful label) :=
  match label with
  | .lockPage _ p => inferInstanceAs (Decidable (p ∈ s.index.live))
  | .free _ p => inferInstanceAs (Decidable (s.lock p = none))
  | .step t => inferInstanceAs (Decidable (∀ victim ∈ (s.pc t).freed, s.lock victim = none))
  | .call _ _ | .alloc _ _ | .unlockPage _ => inferInstanceAs (Decidable True)

end IndexThreads

/-! ## What a step can do -/

inductive IndexMove (s : IndexThreads n) : IndexLabel n → IndexThreads n → Prop
  | call {t call} (position : s.pc t = .idle) :
      IndexMove s (.call t call) { s with pc := update s.pc t (.lockShard call) }
  | lockShard {t call} (position : s.pc t = .lockShard call)
      (free : s.shards (piShard (piHash call.base)) = none) :
      IndexMove s (.step t)
        { s with
          shards := update s.shards (piShard (piHash call.base)) (some t)
          pc := update s.pc t call.first }
  | start {t base} (position : s.pc t = .start base) :
      IndexMove s (.step t)
        { s with pc := update s.pc t (.compare base (s.index.buckets (piHash base))) }
  | ended {t base} (position : s.pc t = .compare base none) :
      IndexMove s (.step t) { s with pc := update s.pc t (.alloc base) }
  | hit {t base p} (position : s.pc t = .compare base (some p)) (same : s.index.base p = base) :
      IndexMove s (.step t)
        { s with
          effects := (t, .getOrCreate base none, .page p false) :: s.effects
          pc := update s.pc t (.lockPage base p false) }
  | pass {t base p} (position : s.pc t = .compare base (some p)) (other : s.index.base p ≠ base) :
      IndexMove s (.step t) { s with pc := update s.pc t (.next base p) }
  | next {t base p} (position : s.pc t = .next base p) :
      IndexMove s (.step t) { s with pc := update s.pc t (.compare base (s.index.next p)) }
  | oom {t base} (position : s.pc t = .alloc base) :
      IndexMove s (.alloc t none)
        { s with
          effects := (t, .getOrCreate base none, .null) :: s.effects
          pc := update s.pc t (.unlockShard base (.getOrCreate base none) .null) }
  | alloc {t base p} (position : s.pc t = .alloc base) (fresh : p ∉ s.index.live) :
      IndexMove s (.alloc t (some p))
        { s with
          index := { s.index with
            base := update s.index.base p base
            next := update s.index.next p none
            live := p :: s.index.live }
          pc := update s.pc t (.setNext base p) }
  | setNext {t base p} (position : s.pc t = .setNext base p) :
      IndexMove s (.step t)
        { s with
          index := { s.index with
            next := update s.index.next p (s.index.buckets (piHash base)) }
          pc := update s.pc t (.setHead base p) }
  | setHead {t base p} (position : s.pc t = .setHead base p) :
      IndexMove s (.step t)
        { s with
          effects := (t, .getOrCreate base (some p), .page p true) :: s.effects
          index := { s.index with buckets := update s.index.buckets (piHash base) (some p) }
          pc := update s.pc t (.lockPage base p true) }
  | lockPage {t base p created} (position : s.pc t = .lockPage base p created)
      (free : s.lock p = none) :
      IndexMove s (.step t)
        { s with
          lock := update s.lock p (some t)
          pc := update s.pc t (.unlockShard base
            (.getOrCreate base (if created then some p else none)) (.page p created)) }
  | missed {t call link} (position : s.pc t = .scan call link)
      (ends : link.load s.index.next (s.index.buckets (piHash call.base)) = none) :
      IndexMove s (.step t)
        { s with
          effects := (t, call.op, call.missed) :: s.effects
          pc := update s.pc t (.unlockShard call.base call.op call.missed) }
  | found {t call link p} (position : s.pc t = .scan call link)
      (loads : link.load s.index.next (s.index.buckets (piHash call.base)) = some p)
      (wanted : call.wants s.index.base p = true) :
      IndexMove s (.step t) { s with pc := update s.pc t (.unlink call link p) }
  | skip {t call link p} (position : s.pc t = .scan call link)
      (loads : link.load s.index.next (s.index.buckets (piHash call.base)) = some p)
      (unwanted : call.wants s.index.base p = false) :
      IndexMove s (.step t) { s with pc := update s.pc t (.scan call (.after p)) }
  | detach {t base expect link victim}
      (position : s.pc t = .unlink (.detachIf base expect) link victim) :
      IndexMove s (.step t)
        { s with
          effects := (t, .detachIf base expect, .unlinked true) :: s.effects
          index := s.index.store (piHash base) link (s.index.next victim)
          pc := update s.pc t (.clearNext base expect) }
  | remove {t base link victim} (position : s.pc t = .unlink (.remove base) link victim) :
      IndexMove s (.step t)
        { s with
          effects := (t, .remove base, .done) :: s.effects
          index := s.index.store (piHash base) link (s.index.next victim)
          pc := update s.pc t (.unlockVictim base victim) }
  | clearNext {t base expect} (position : s.pc t = .clearNext base expect) :
      IndexMove s (.step t)
        { s with
          index := { s.index with next := update s.index.next expect none }
          pc := update s.pc t (.unlockShard base (.detachIf base expect) (.unlinked true)) }
  | unlockShard {t base op answer} (position : s.pc t = .unlockShard base op answer) :
      IndexMove s (.step t)
        { s with
          returned := update s.returned t ((op, answer) :: s.returned t)
          shards := update s.shards (piShard (piHash base)) none
          index := { s.index with
            owned := (IndexThreads.given op answer).toList ++ s.index.owned }
          pc := update s.pc t (IndexThreads.back answer) }
  | unlockVictim {t base victim} (position : s.pc t = .unlockVictim base victim) :
      IndexMove s (.step t)
        { s with
          shards := update s.shards (piShard (piHash base)) none
          pc := update s.pc t (.freeVictim base victim) }
  | freeVictim {t base victim} (position : s.pc t = .freeVictim base victim) :
      IndexMove s (.step t)
        { s with
          returned := update s.returned t ((.remove base, .done) :: s.returned t)
          index := s.index.release victim
          pc := update s.pc t .idle }
  | enter {t p} (position : s.pc t = .idle) (free : s.lock p = none) :
      IndexMove s (.lockPage t p)
        { s with lock := update s.lock p (some t), pc := update s.pc t (.inside p) }
  | leave {t p} (position : s.pc t = .inside p) :
      IndexMove s (.unlockPage t)
        { s with lock := update s.lock p none, pc := update s.pc t .idle }
  | free {t p} (position : s.pc t = .idle) (owned : p ∈ s.index.owned) :
      IndexMove s (.free t p)
        { s with
          effects := (t, .free p, .done) :: s.effects
          returned := update s.returned t ((.free p, .done) :: s.returned t)
          index := s.index.release p }

variable {s s' : IndexThreads n} {label : IndexLabel n} {t : Fin n}

theorem indexMove_of_advance (stepped : s.advance t = some s') : IndexMove s (.step t) s' := by
  unfold IndexThreads.advance at stepped
  split at stepped
  · next call position =>
    split at stepped
    · next free =>
      cases stepped
      exact .lockShard position free
    · cases stepped
  · next position =>
    cases stepped
    exact .start position
  · next position =>
    cases stepped
    exact .ended position
  · next position =>
    split at stepped
    · next same =>
      cases stepped
      exact .hit position same
    · next other =>
      cases stepped
      exact .pass position other
  · next position =>
    cases stepped
    exact .next position
  · next position =>
    cases stepped
    exact .setNext position
  · next position =>
    cases stepped
    exact .setHead position
  · next position =>
    split at stepped
    · next free =>
      cases stepped
      exact .lockPage position free
    · cases stepped
  · next position =>
    split at stepped
    · next ends =>
      cases stepped
      exact .missed position ends
    · next loads =>
      split at stepped
      · next wanted =>
        cases stepped
        exact .found position loads wanted
      · next unwanted =>
        cases stepped
        exact .skip position loads (Bool.eq_false_of_not_eq_true unwanted)
  · next position =>
    split at stepped
    · cases stepped
      exact .detach position
    · cases stepped
      exact .remove position
  · next position =>
    cases stepped
    exact .clearNext position
  · next position =>
    cases stepped
    exact .unlockShard position
  · next position =>
    cases stepped
    exact .unlockVictim position
  · next position =>
    cases stepped
    exact .freeVictim position
  all_goals cases stepped

theorem indexMove_of_step (stepped : s.step label = some s') : IndexMove s label s' := by
  cases label with
  | call t call =>
    simp only [IndexThreads.step] at stepped
    split at stepped
    · next position =>
      cases stepped
      exact .call position
    · cases stepped
  | step t => exact indexMove_of_advance stepped
  | alloc t memory =>
    simp only [IndexThreads.step, IndexThreads.allocStep] at stepped
    split at stepped
    · next position =>
      cases stepped
      exact .oom position
    · next position =>
      split at stepped
      · cases stepped
      · next fresh =>
        cases stepped
        exact .alloc position fresh
    · cases stepped
  | lockPage t p =>
    simp only [IndexThreads.step] at stepped
    split at stepped
    · next free =>
      cases stepped
      exact .enter free.1 free.2
    · cases stepped
  | unlockPage t =>
    simp only [IndexThreads.step] at stepped
    split at stepped
    · next position =>
      cases stepped
      exact .leave position
    · cases stepped
  | free t p =>
    simp only [IndexThreads.step] at stepped
    split at stepped
    · next owned =>
      cases stepped
      exact .free owned.1 owned.2
    · cases stepped

end NoxDB

import NoxDB.PageIndex.Threads

/-! # Calls of the page index are atomic

However many threads call the functions of `page_index.c`, and in whatever order their
statements are executed, the calls do what they would do one at a time: in the order in which
they take effect they are a sequence of calls of the sequential index, each returns what it
returned there, and it takes effect between its first statement and its return.

The invariant says where a thread is on the chain of its bucket.  Other threads do not disturb
that, because what they write is on chains of other shards or known to them alone.
-/

namespace NoxDB

open Function (update)
open Library.Links
open Library.Lists
open Library.Locks
open Library.Runs

variable {n : Nat}

/-! ## The chains while a call is under way -/

namespace PageIndex

variable {s : PageIndex} {chains : Nat → List Nat} {base p : Nat}

/-- A link that no chain uses can be written. -/
theorem Linked.setNext (linked : Linked s chains) (outside : ∀ b, p ∉ chains b)
    (value : Option Nat) : Linked { s with next := update s.next p value } chains where
  chain b := (linked.chain b).update (outside b) value
  hashed := linked.hashed
  single := linked.single
  live := linked.live
  owned := linked.owned

/-- Pages that no chain uses can be given to an owner. -/
theorem Linked.give {pages : List Nat} (linked : Linked s chains)
    (outside : ∀ p ∈ pages, ∀ b, p ∉ chains b) (live : ∀ p ∈ pages, p ∈ s.live) :
    Linked { s with owned := pages ++ s.owned } chains where
  chain := linked.chain
  hashed := linked.hashed
  single := linked.single
  live b q member := by
    obtain ⟨alive, unowned⟩ := linked.live b q member
    refine ⟨alive, fun owned => ?_⟩
    rcases List.mem_append.mp owned with new | old
    · exact outside q new b member
    · exact unowned old
  owned q owned := by
    rcases List.mem_append.mp owned with new | old
    · exact live q new
    · exact linked.owned q old

/-- Memory that was not in use becomes a page that is on no chain yet. -/
theorem Linked.alloc (linked : Linked s chains) (fresh : p ∉ s.live) :
    Linked
      { s with
        base := update s.base p base
        next := update s.next p none
        live := p :: s.live } chains := by
  have outside : ∀ c, p ∉ chains c := fun c member => fresh (linked.live c p member).1
  have old : ∀ {c q}, q ∈ chains c → update s.base p base q = s.base q := fun {c q} member =>
    Function.update_of_ne (ne_of_mem_of_not_mem member (outside c)) _ _
  constructor
  · exact fun c => (linked.chain c).update (outside c) none
  · intro c q member
    simp only [old member]
    exact linked.hashed c q member
  · intro c q member r memberToo bases
    simp only [old member, old memberToo] at bases
    exact linked.single c q member r memberToo bases
  · exact fun c q member => (linked.live c q member).imp_left (List.mem_cons_of_mem _)
  · exact fun q owned => List.mem_cons_of_mem _ (linked.owned q owned)

/-- A page that is linked to the first page of its bucket becomes the first. -/
theorem Linked.publish (linked : Linked s chains) (outside : ∀ b, p ∉ chains b) (live : p ∈ s.live)
    (unowned : p ∉ s.owned) (own : s.base p = base)
    (points : s.next p = s.buckets (piHash base))
    (absent : ∀ q ∈ chains (piHash base), s.base q ≠ base) :
    Linked { s with buckets := update s.buckets (piHash base) (some p) }
      (update chains (piHash base) (p :: chains (piHash base))) := by
  -- But for the list of what is in use, this is the insertion of memory that was not in use.
  have without := linked.release outside
  have none_ : (s.release p).map base = none := by
    refine Option.eq_none_iff_forall_ne_some.mpr fun q found => ?_
    obtain ⟨member, same⟩ := without.map_eq_some_iff.mp found
    exact absent q member same
  have fresh : p ∉ (s.release p).live := by simp [PageIndex.release]
  have inserted := without.insert fresh none_
  have bases : update s.base p base = s.base := Function.update_eq_self_iff.mpr own.symm
  have links : update s.next p (s.buckets (piHash base)) = s.next :=
    Function.update_eq_self_iff.mpr points.symm
  constructor
  · intro c
    have chain := inserted.chain c
    simp only [PageIndex.release] at chain
    rwa [links] at chain
  · intro c q member
    have hashed := inserted.hashed c q member
    simp only [PageIndex.release] at hashed
    rwa [bases] at hashed
  · intro c q member r memberToo same
    refine inserted.single c q member r memberToo ?_
    simp only [PageIndex.release]
    rw [bases]
    exact same
  · intro c q member
    rcases Library.Lists.mem_update_cons.mp member with ⟨-, rfl⟩ | old
    · exact ⟨live, unowned⟩
    · exact linked.live c q old
  · exact linked.owned

end PageIndex

/-! ## Where a thread is -/

namespace IndexPc

/-- The bucket whose shard the thread holds. -/
def bucket : IndexPc → Option Nat
  | .start base | .compare base _ | .next base _ | .alloc base | .setNext base _ | .setHead base _
  | .lockPage base _ _ | .clearNext base _ | .unlockShard base _ _ | .unlockVictim base _ =>
    some (piHash base)
  | .scan call _ | .unlink call _ _ => some (piHash call.base)
  | .idle | .lockShard _ | .freeVictim _ _ | .inside _ => none

def shard (pc : IndexPc) : Option Nat := pc.bucket.map piShard

/-- The page whose lock the thread holds. -/
def page : IndexPc → Option Nat
  | .unlockShard _ _ (.page p _) | .inside p => some p
  | _ => none

/-- The page that this thread alone can reach: not on its chain yet, or not any more. -/
def hand : IndexPc → Option Nat
  | .setNext _ p | .setHead _ p | .clearNext _ p | .unlockVictim _ p | .freeVictim _ p => some p
  | .unlockShard _ op answer => IndexThreads.given op answer
  | _ => none

/-- The call has taken effect, and will return this. -/
def decided : IndexPc → Option (IndexOp × IndexAnswer)
  | .lockPage base p created =>
    some (.getOrCreate base (if created then some p else none), .page p created)
  | .clearNext base expect => some (.detachIf base expect, .unlinked true)
  | .unlockShard _ op answer => some (op, answer)
  | .unlockVictim base _ | .freeVictim base _ => some (.remove base, .done)
  | _ => none

end IndexPc

/-- A walk that has come past `before` without a match. -/
structure Passed (chain : List Nat) (test : Nat → Bool) (before after : List Nat) : Prop where
  split : chain = before ++ after
  earlier : ∀ q ∈ before, test q = false

/-- What a thread has found out about its bucket, in terms of the chains of the sequential index. -/
def IndexPc.Position (memory index : PageIndex) : IndexPc → Prop
  | .compare base p =>
    ∃ before after, Passed (index.chain (piHash base)) (fun q => memory.base q == base) before
      after ∧ p = after.head?
  | .next base p =>
    ∃ before after, Passed (index.chain (piHash base)) (fun q => memory.base q == base)
      (before ++ [p]) after
  | .alloc base => ∀ q ∈ index.chain (piHash base), memory.base q ≠ base
  | .setNext base p =>
    (∀ q ∈ index.chain (piHash base), memory.base q ≠ base) ∧ p ∉ index.live ∧ memory.base p = base
  | .setHead base p =>
    ((∀ q ∈ index.chain (piHash base), memory.base q ≠ base) ∧ p ∉ index.live ∧
      memory.base p = base) ∧ memory.next p = memory.buckets (piHash base)
  | .lockPage base p _ => p ∈ index.chain (piHash base) ∧ memory.base p = base
  | .scan call link =>
    ∃ before after, Passed (index.chain (piHash call.base)) (call.wants memory.base) before after ∧
      link = .behind before
  | .unlink call link victim =>
    ∃ before after, Passed (index.chain (piHash call.base)) (call.wants memory.base) before
      (victim :: after) ∧ link = .behind before ∧ call.wants memory.base victim = true
  | .clearNext _ p => p ∈ index.owned
  | .unlockShard _ op answer => ∀ p ∈ IndexThreads.given op answer, p ∈ index.owned
  | .unlockVictim _ p | .freeVictim _ p => p ∉ index.live
  | .idle | .lockShard _ | .start _ | .inside _ => True

theorem Passed.congr {chain chain' before after : List Nat} {test test' : Nat → Bool}
    (passed : Passed chain test before after) (same : chain' = chain)
    (tests : ∀ q ∈ chain, test' q = test q) : Passed chain' test' before after where
  split := same.trans passed.split
  earlier q member := by
    rw [tests q (by simp [passed.split, member])]
    exact passed.earlier q member

/-- The walk goes past a page. -/
theorem Passed.next {chain before after : List Nat} {test : Nat → Bool} {p : Nat}
    (passed : Passed chain test before (p :: after)) (unwanted : test p = false) :
    Passed chain test (before ++ [p]) after := by
  refine ⟨by simp [passed.split], fun q member => ?_⟩
  rcases List.mem_append.mp member with old | new
  · exact passed.earlier q old
  · rw [List.mem_singleton.mp new, unwanted]

theorem Removal.wants_congr {call : Removal} {bases bases' : Nat → Nat} {q : Nat}
    (same : bases' q = bases q) : call.wants bases' q = call.wants bases q := by
  cases call <;> simp [Removal.wants, same]

/-- What a thread knows is about its own bucket and the page in its hand. -/
theorem IndexPc.Position.frame {memory memory' index index' : PageIndex} {pc : IndexPc}
    (position : pc.Position memory index)
    (chain : ∀ b ∈ pc.bucket, index'.chain b = index.chain b)
    (bases : ∀ b, ∀ q ∈ index.chain b, memory'.base q = memory.base q)
    (heads : ∀ b ∈ pc.bucket, memory'.buckets b = memory.buckets b)
    (hands : ∀ p ∈ pc.hand, memory'.next p = memory.next p ∧ memory'.base p = memory.base p ∧
      (p ∈ index'.live ↔ p ∈ index.live) ∧ (p ∈ index'.owned ↔ p ∈ index.owned)) :
    pc.Position memory' index' := by
  have absent : ∀ {base : Nat}, piHash base ∈ pc.bucket →
      (∀ q ∈ index.chain (piHash base), memory.base q ≠ base) →
      ∀ q ∈ index'.chain (piHash base), memory'.base q ≠ base := by
    intro base mine none_ q member
    rw [chain _ mine] at member
    rw [bases _ q member]
    exact none_ q member
  cases pc with
  | compare base p =>
    obtain ⟨before, after, passed, here⟩ := position
    exact ⟨before, after, passed.congr (chain _ rfl) fun q member => by rw [bases _ q member], here⟩
  | next base p =>
    obtain ⟨before, after, passed⟩ := position
    exact ⟨before, after, passed.congr (chain _ rfl) fun q member => by rw [bases _ q member]⟩
  | alloc base => exact absent rfl position
  | setNext base p =>
    obtain ⟨-, own, alive, -⟩ := hands p rfl
    exact ⟨absent rfl position.1, fun live => position.2.1 (alive.mp live), own.trans position.2.2⟩
  | setHead base p =>
    obtain ⟨links, own, alive, -⟩ := hands p rfl
    obtain ⟨⟨none_, fresh, same⟩, points⟩ := position
    exact ⟨⟨absent rfl none_, fun live => fresh (alive.mp live), own.trans same⟩,
      by rw [links, points, heads _ rfl]⟩
  | lockPage base p created =>
    refine ⟨?_, (bases _ p position.1).trans position.2⟩
    rw [chain _ rfl]
    exact position.1
  | scan call link =>
    obtain ⟨before, after, passed, here⟩ := position
    exact ⟨before, after,
      passed.congr (chain _ rfl) fun q member => call.wants_congr (bases _ q member), here⟩
  | unlink call link victim =>
    obtain ⟨before, after, passed, here, match_⟩ := position
    have member : victim ∈ index.chain (piHash call.base) := by simp [passed.split]
    exact ⟨before, after,
      passed.congr (chain _ rfl) fun q member => call.wants_congr (bases _ q member), here,
      (call.wants_congr (bases _ victim member)).trans match_⟩
  | clearNext base p => exact (hands p rfl).2.2.2.mpr position
  | unlockShard base op answer =>
    exact fun p given => (hands p given).2.2.2.mpr (position p given)
  | unlockVictim base p => exact fun live => position ((hands p rfl).2.2.1.mp live)
  | freeVictim base p => exact fun live => position ((hands p rfl).2.2.1.mp live)
  | idle | lockShard _ | start _ | inside _ => trivial

/-! ## Locks and returns -/

variable {s s' : IndexThreads n} {label : IndexLabel n}

/-- The mutexes of the shards are held by the threads that are in them, and the locks of pages by
those that have them. -/
structure IndexLocked (s : IndexThreads n) : Prop where
  shards : Consistent s.shards fun t => (s.pc t).shard
  pages : Consistent s.lock fun t => (s.pc t).page

theorem IndexCall.first_bucket (call : IndexCall) :
    call.first.bucket = some (piHash call.base) := by
  cases call <;> rfl

theorem IndexCall.first_page (call : IndexCall) : call.first.page = none := by
  cases call <;> rfl

theorem back_bucket (answer : IndexAnswer) : (IndexThreads.back answer).bucket = none := by
  cases answer <;> rfl

theorem back_page (base : Nat) (op : IndexOp) (answer : IndexAnswer) :
    (IndexThreads.back answer).page = (IndexPc.unlockShard base op answer).page := by
  cases answer <;> rfl

theorem indexShards_step (locked : Consistent s.shards fun t => (s.pc t).shard)
    (move : IndexMove s label s') : Consistent s'.shards fun t => (s'.pc t).shard := by
  cases move with
  | call position | start position | ended position | hit position | pass position | next position
  | oom position | alloc position | setNext position | setHead position | lockPage position
  | missed position | found position | skip position | detach position | remove position
  | clearNext position | freeVictim position | enter position | leave position =>
    exact locked.quiet (by rw [position]; rfl)
  | @lockShard t call position free =>
    rw [map_update IndexPc.shard, IndexPc.shard, call.first_bucket]
    exact locked.acquire free (by rw [position]; rfl)
  | @unlockShard t base op answer position =>
    rw [map_update IndexPc.shard, IndexPc.shard, back_bucket]
    exact locked.release (by rw [position]; rfl)
  | @unlockVictim t base victim position =>
    rw [map_update IndexPc.shard]
    exact locked.release (by rw [position]; rfl)
  | free position => exact locked

theorem indexPages_step (locked : Consistent s.lock fun t => (s.pc t).page)
    (move : IndexMove s label s') : Consistent s'.lock fun t => (s'.pc t).page := by
  cases move with
  | call position | start position | ended position | hit position | pass position | next position
  | oom position | alloc position | setNext position | setHead position | found position
  | skip position | detach position | remove position | clearNext position | unlockVictim position
  | freeVictim position =>
    exact locked.quiet (by rw [position]; rfl)
  | @missed t call link position ends =>
    refine locked.quiet ?_
    rw [position]
    cases call <;> rfl
  | @lockShard t call position free =>
    exact locked.quiet (by rw [position, call.first_page]; rfl)
  | @unlockShard t base op answer position =>
    exact locked.quiet (by rw [position, back_page])
  | @lockPage t base p created position free =>
    rw [map_update IndexPc.page]
    exact locked.acquire free (by rw [position]; rfl)
  | @enter t p position free =>
    rw [map_update IndexPc.page]
    exact locked.acquire free (by rw [position]; rfl)
  | @leave t p position =>
    rw [map_update IndexPc.page]
    exact locked.release (by rw [position]; rfl)
  | free position => exact locked

theorem IndexLocked.step (locked : IndexLocked s) (move : IndexMove s label s') : IndexLocked s' :=
  ⟨indexShards_step locked.shards move, indexPages_step locked.pages move⟩

/-- The calls of `t` that have taken effect. -/
def IndexThreads.effectsOf (s : IndexThreads n) (t : Fin n) : List (IndexOp × IndexAnswer) :=
  s.effects.filterMap fun entry => if entry.1 = t then some entry.2 else none

theorem IndexThreads.effectsOf_cons {t : Fin n} {entry : IndexOp × IndexAnswer}
    (effects : s'.effects = (t, entry) :: s.effects) (u : Fin n) :
    s'.effectsOf u = if t = u then entry :: s.effectsOf u else s.effectsOf u := by
  rw [effectsOf, effects]
  by_cases mine : t = u <;> simp [effectsOf, mine]

/-- A thread's calls take effect in the order in which they return, each before it returns. -/
def EffectsReturn (s : IndexThreads n) : Prop :=
  ∀ t, s.effectsOf t = (s.pc t).decided.toList ++ s.returned t

namespace EffectsReturn

/-- A thread moves on inside a call. -/
theorem quiet {t : Fin n} {pc : IndexPc} (recorded : EffectsReturn s)
    (effects : s'.effects = s.effects) (returned : s'.returned = s.returned)
    (moved : s'.pc = update s.pc t pc) (same : pc.decided = (s.pc t).decided) :
    EffectsReturn s' := by
  intro u
  have before := recorded u
  rw [IndexThreads.effectsOf, effects, returned, moved]
  by_cases mine : u = t
  · subst mine
    rw [Function.update_self, same]
    exact before
  · rw [Function.update_of_ne mine]
    exact before

/-- A call takes effect. -/
theorem effect {t : Fin n} {pc : IndexPc} {entry : IndexOp × IndexAnswer}
    (recorded : EffectsReturn s) (effects : s'.effects = (t, entry) :: s.effects)
    (returned : s'.returned = s.returned) (moved : s'.pc = update s.pc t pc)
    (undecided : (s.pc t).decided = none) (decided : pc.decided = some entry) :
    EffectsReturn s' := by
  intro u
  have before := recorded u
  rw [IndexThreads.effectsOf_cons effects, returned, moved]
  by_cases mine : u = t
  · subst mine
    rw [undecided] at before
    rw [Function.update_self, decided, if_pos rfl]
    exact congrArg (entry :: ·) before
  · rw [Function.update_of_ne mine, if_neg (Ne.symm mine)]
    exact before

/-- A call returns. -/
theorem ret {t : Fin n} {pc : IndexPc} {entry : IndexOp × IndexAnswer} (recorded : EffectsReturn s)
    (effects : s'.effects = s.effects)
    (returned : s'.returned = update s.returned t (entry :: s.returned t))
    (moved : s'.pc = update s.pc t pc) (decided : (s.pc t).decided = some entry)
    (outside : pc.decided = none) : EffectsReturn s' := by
  intro u
  have before := recorded u
  rw [IndexThreads.effectsOf, effects, returned, moved]
  by_cases mine : u = t
  · subst mine
    rw [decided] at before
    rw [Function.update_self, Function.update_self, outside]
    exact before
  · rw [Function.update_of_ne mine, Function.update_of_ne mine]
    exact before

/-- A call takes effect and returns in one step. -/
theorem both {t : Fin n} {entry : IndexOp × IndexAnswer} (recorded : EffectsReturn s)
    (effects : s'.effects = (t, entry) :: s.effects)
    (returned : s'.returned = update s.returned t (entry :: s.returned t)) (still : s'.pc = s.pc)
    (outside : (s.pc t).decided = none) : EffectsReturn s' := by
  intro u
  have before := recorded u
  rw [IndexThreads.effectsOf_cons effects, returned, still]
  by_cases mine : u = t
  · subst mine
    rw [outside] at before ⊢
    rw [if_pos rfl, Function.update_self]
    exact congrArg (entry :: ·) before
  · rw [if_neg (Ne.symm mine), Function.update_of_ne mine]
    exact before

theorem back_decided (answer : IndexAnswer) : (IndexThreads.back answer).decided = none := by
  cases answer <;> rfl

theorem step (recorded : EffectsReturn s) (move : IndexMove s label s') : EffectsReturn s' := by
  cases move with
  | call position | start position | ended position | pass position | next position
  | alloc position | setNext position | lockPage position | found position | skip position
  | clearNext position | unlockVictim position | enter position | leave position =>
    exact recorded.quiet rfl rfl rfl (by rw [position]; rfl)
  | @lockShard t call position free =>
    refine recorded.quiet rfl rfl rfl ?_
    rw [position]
    cases call <;> rfl
  | hit position | oom position | setHead position | missed position | detach position
  | remove position =>
    exact recorded.effect rfl rfl rfl (by rw [position]; rfl) rfl
  | @unlockShard t base op answer position =>
    exact recorded.ret rfl rfl rfl (by rw [position]; rfl) (back_decided answer)
  | freeVictim position => exact recorded.ret rfl rfl rfl (by rw [position]; rfl) rfl
  | free position => exact recorded.both rfl rfl rfl (by rw [position]; rfl)

end EffectsReturn

/-! ## The sequential index -/

/-- `page_index_detach_if` of a page that is not on the chain changes nothing. -/
theorem PageIndex.detachIf_absent {index : PageIndex} {chains : Nat → List Nat} {base expect : Nat}
    (linked : index.Linked chains) (absent : expect ∉ chains (piHash base)) :
    index.detachIf base expect = some (index, .unlinked false) := by
  obtain ⟨result, walk, sought⟩ :=
    seek_eq (linked.chain (piHash base)) (fun p => p == expect) (linked.short _)
  rw [PageIndex.detachIf, walk]
  cases sought with
  | absent none_ => rfl
  | found before node after split passed =>
    obtain rfl : node = expect := by simpa using passed
    simp [split] at absent

/-- The calls that have taken effect are calls of the sequential index, and the memory has its
chains.  A page that is in the hand of a thread is there already and not yet given away in the
memory, or the other way round in the sequential index. -/
structure Serialized (s : IndexThreads n) (session : IndexSession) : Prop where
  linked : session.index.Linked session.index.chain
  memory : s.index.Linked session.index.chain
  bases : ∀ p ∈ session.index.live, s.index.base p = session.index.base p
  live : ∀ p ∈ session.index.live, p ∈ s.index.live
  owned : ∀ p ∈ s.index.owned, p ∈ session.index.owned
  calls : session.calls = s.effects.map Prod.snd
  position : ∀ t, (s.pc t).Position s.index session.index
  hands : ∀ t, ∀ p ∈ (s.pc t).hand, p ∈ s.index.live ∧ p ∉ s.index.owned
  apart : ∀ t u, ∀ p ∈ (s.pc t).hand, p ∈ (s.pc u).hand → t = u
  held : ∀ p t, s.lock p = some t → p ∈ s.index.live

/-- The sequential index makes at most one call. -/
def SerialStep (session : IndexSession) (s' : IndexThreads n) : Prop :=
  ∃ session', (session' = session ∨ ∃ op, session.step op = some session') ∧ Serialized s' session'

theorem IndexSession.step_of_call {session : IndexSession} {index : PageIndex}
    {answer : IndexAnswer} (op : IndexOp) (called : session.index.call op = some (index, answer)) :
    session.step op = some ⟨index, (op, answer) :: session.calls⟩ := by
  rw [IndexSession.step, called]
  rfl

/-- Threads in two buckets that share a shard are one thread. -/
theorem IndexLocked.buckets_apart (locked : IndexLocked s) {t u : Fin n} {b c : Nat}
    (mine : b ∈ (s.pc t).bucket) (theirs : c ∈ (s.pc u).bucket) (differs : u ≠ t) : c ≠ b := by
  rintro rfl
  have first : (s.pc u).shard = some (piShard c) := by
    rw [IndexPc.shard, Option.mem_def.mp theirs, Option.map_some]
  have second : (s.pc t).shard = some (piShard c) := by
    rw [IndexPc.shard, Option.mem_def.mp mine, Option.map_some]
  exact differs (locked.shards.exclusive first second)

namespace Serialized

variable {session : IndexSession} {t u : Fin n} {pc : IndexPc} {base p : Nat}

/-- A page in a hand is on no chain. -/
theorem outside (serial : Serialized s session) (mine : p ∈ (s.pc t).hand) (b : Nat) :
    p ∉ session.index.chain b := by
  intro member
  obtain ⟨live, unowned⟩ := serial.linked.live b p member
  have position := serial.position t
  cases here : s.pc t <;> rw [here] at mine position <;> simp only [IndexPc.hand, Option.mem_def,
    Option.some.injEq, reduceCtorEq] at mine
  case setNext => exact position.2.1 (mine ▸ live)
  case setHead => exact position.1.2.1 (mine ▸ live)
  case clearNext => exact unowned (mine ▸ position)
  case unlockShard => exact unowned (position p mine)
  case unlockVictim => exact position (mine ▸ live)
  case freeVictim => exact position (mine ▸ live)

theorem owned_live (serial : Serialized s session) (owned : p ∈ s.index.owned) :
    p ∈ session.index.live := serial.linked.owned p (serial.owned p owned)

/-- What the other threads know stays true if `t` changes its own bucket only, and no page in the
hand of another. -/
theorem others (serial : Serialized s session) (locked : IndexLocked s) (differs : u ≠ t)
    {memory index : PageIndex}
    (chain : ∀ c, c ∉ (s.pc t).bucket → index.chain c = session.index.chain c)
    (bases : ∀ b, ∀ q ∈ session.index.chain b, memory.base q = s.index.base q)
    (heads : ∀ c, c ∉ (s.pc t).bucket → memory.buckets c = s.index.buckets c)
    (hands : ∀ p ∈ (s.pc u).hand, memory.next p = s.index.next p ∧
      memory.base p = s.index.base p ∧ (p ∈ index.live ↔ p ∈ session.index.live) ∧
      (p ∈ index.owned ↔ p ∈ session.index.owned)) :
    (s.pc u).Position memory index := by
  have elsewhere : ∀ c ∈ (s.pc u).bucket, c ∉ (s.pc t).bucket := fun c theirs mine =>
    locked.buckets_apart mine theirs differs rfl
  exact (serial.position u).frame (fun c theirs => chain c (elsewhere c theirs)) bases
    (fun c theirs => heads c (elsewhere c theirs)) hands

/-- A thread goes on to `pc`. -/
theorem advance (serial : Serialized s session) {session' : IndexSession}
    (moved : s'.pc = update s.pc t pc)
    (linked : session'.index.Linked session'.index.chain)
    (memory : s'.index.Linked session'.index.chain)
    (bases : ∀ p ∈ session'.index.live, s'.index.base p = session'.index.base p)
    (live : ∀ p ∈ session'.index.live, p ∈ s'.index.live)
    (owned : ∀ p ∈ s'.index.owned, p ∈ session'.index.owned)
    (calls : session'.calls = s'.effects.map Prod.snd)
    (others : ∀ u, u ≠ t → (s.pc u).Position s'.index session'.index)
    (own : pc.Position s'.index session'.index)
    (kept : ∀ u, u ≠ t → ∀ p ∈ (s.pc u).hand, p ∈ s'.index.live ∧ p ∉ s'.index.owned)
    (mine : ∀ p ∈ pc.hand, (p ∈ s'.index.live ∧ p ∉ s'.index.owned) ∧
      ∀ u, u ≠ t → p ∉ (s.pc u).hand)
    (held : ∀ p u, s'.lock p = some u → p ∈ s'.index.live) : Serialized s' session' := by
  refine ⟨linked, memory, bases, live, owned, calls, fun u => ?_, fun u p here => ?_,
    fun u v p first second => ?_, held⟩
  · rw [moved]
    by_cases same : u = t
    · subst same
      rw [Function.update_self]
      exact own
    · rw [Function.update_of_ne same]
      exact others u same
  · rw [moved] at here
    by_cases same : u = t
    · subst same
      rw [Function.update_self] at here
      exact (mine p here).1
    · rw [Function.update_of_ne same] at here
      exact kept u same p here
  · rw [moved] at first second
    by_cases same : u = t
    · subst same
      by_cases sameToo : v = u
      · exact sameToo.symm
      · rw [Function.update_self] at first
        rw [Function.update_of_ne sameToo] at second
        exact absurd second ((mine p first).2 v sameToo)
    · rw [Function.update_of_ne same] at first
      by_cases sameToo : v = t
      · subst sameToo
        rw [Function.update_self] at second
        exact absurd first ((mine p second).2 u same)
      · rw [Function.update_of_ne sameToo] at second
        exact serial.apart u v p first second

/-- A thread goes on without touching the index. -/
theorem quiet (serial : Serialized s session) {calls : List (IndexOp × IndexAnswer)}
    (still : s'.index = s.index) (moved : s'.pc = update s.pc t pc)
    (recorded : calls = s'.effects.map Prod.snd) (own : pc.Position s.index session.index)
    (hand : pc.hand = none ∨ pc.hand = (s.pc t).hand)
    (held : ∀ p u, s'.lock p = some u → p ∈ s.index.live) :
    Serialized s' ⟨session.index, calls⟩ := by
  have mine : ∀ p ∈ pc.hand, p ∈ (s.pc t).hand := by
    intro p here
    rcases hand with empty | same
    · simp [empty] at here
    · exact same ▸ here
  refine serial.advance moved serial.linked (still ▸ serial.memory) (still ▸ serial.bases)
    (still ▸ serial.live) (still ▸ serial.owned) recorded (fun u _ => still ▸ serial.position u)
    (still ▸ own) (fun u _ => still ▸ serial.hands u)
    (fun p here => ⟨?_, fun u differs theirs => ?_⟩) (still ▸ held)
  · rw [still]
    exact serial.hands t p (mine p here)
  · exact differs (serial.apart t u p (mine p here) theirs).symm

/-- The pages of a bucket that have the base, seen in the memory. -/
theorem map_none_of_absent (serial : Serialized s session)
    (absent : ∀ q ∈ session.index.chain (piHash base), s.index.base q ≠ base) :
    session.index.map base = none := by
  refine Option.eq_none_iff_forall_ne_some.mpr fun q found => ?_
  obtain ⟨member, same⟩ := serial.linked.map_eq_some_iff.mp found
  refine absent q member ?_
  rw [serial.bases q (serial.linked.live _ q member).1, same]

theorem map_of_mem (serial : Serialized s session) (member : p ∈ session.index.chain (piHash base))
    (same : s.index.base p = base) : session.index.map base = some p :=
  serial.linked.map_eq_some_iff.mpr
    ⟨member, by rw [← serial.bases p (serial.linked.live _ p member).1, same]⟩

/-! ## The loop of `page_index_get_or_create` -/

theorem start (serial : Serialized s session) (base : Nat) :
    IndexPc.Position s.index session.index (.compare base (s.index.buckets (piHash base))) :=
  ⟨[], session.index.chain (piHash base), ⟨rfl, by simp⟩, (serial.memory.chain _).head_eq⟩

theorem ended (serial : Serialized s session) (position : s.pc t = .compare base none) :
    ∀ q ∈ session.index.chain (piHash base), s.index.base q ≠ base := by
  have here := serial.position t
  rw [position] at here
  obtain ⟨before, after, passed, ends⟩ := here
  obtain rfl := List.head?_eq_none_iff.mp ends.symm
  intro q member
  rw [passed.split, List.append_nil] at member
  simpa using passed.earlier q member

/-- The page under the loop is on the chain. -/
theorem compared (serial : Serialized s session) (position : s.pc t = .compare base (some p)) :
    ∃ before after, Passed (session.index.chain (piHash base)) (fun q => s.index.base q == base)
      before (p :: after) := by
  have here := serial.position t
  rw [position] at here
  obtain ⟨before, after, passed, ends⟩ := here
  obtain ⟨rest, rfl⟩ := List.head?_eq_some_iff.mp ends.symm
  exact ⟨before, rest, passed⟩

theorem next (serial : Serialized s session) (position : s.pc t = .next base p) :
    IndexPc.Position s.index session.index (.compare base (s.index.next p)) := by
  have here := serial.position t
  rw [position] at here
  obtain ⟨before, after, passed⟩ := here
  refine ⟨before ++ [p], after, passed, ?_⟩
  have chain := serial.memory.chain (piHash base)
  rw [passed.split, List.append_assoc] at chain
  exact chain.next_eq

/-! ## The loop of the calls that unlink -/

theorem scanned (serial : Serialized s session) {call : Removal} {link : Slot Nat}
    (position : s.pc t = .scan call link) :
    ∃ before after, Passed (session.index.chain (piHash call.base)) (call.wants s.index.base)
      before after ∧ link = .behind before ∧
      link.load s.index.next (s.index.buckets (piHash call.base)) = after.head? := by
  have here := serial.position t
  rw [position] at here
  obtain ⟨before, after, passed, rfl⟩ := here
  have chain := serial.memory.chain (piHash call.base)
  rw [passed.split] at chain
  exact ⟨before, after, passed, rfl, load_behind chain⟩

/-! ## The statements that write -/

theorem bucket_ne {b c : Nat} (position : s.pc t = pc) (own : pc.bucket = some b)
    (other : c ∉ (s.pc t).bucket) : c ≠ b := by
  rintro rfl
  rw [position] at other
  exact other own

theorem alloc (serial : Serialized s session) (locked : IndexLocked s)
    (position : s.pc t = .alloc base) (fresh : p ∉ s.index.live) :
    Serialized
      { s with
        index := { s.index with
          base := update s.index.base p base
          next := update s.index.next p none
          live := p :: s.index.live }
        pc := update s.pc t (.setNext base p) } session := by
  have unused : p ∉ session.index.live := fun live => fresh (serial.live p live)
  have old : ∀ q ∈ s.index.live, update s.index.base p base q = s.index.base q := fun q live =>
    Function.update_of_ne (ne_of_mem_of_not_mem live fresh) _ _
  have chained : ∀ b, ∀ q ∈ session.index.chain b, q ∈ s.index.live := fun b q member =>
    (serial.memory.live b q member).1
  have here := serial.position t
  rw [position] at here
  refine serial.advance rfl serial.linked (serial.memory.alloc fresh) (fun q live => ?_)
    (fun q live => List.mem_cons_of_mem _ (serial.live q live)) serial.owned serial.calls
    (fun u differs => ?_) ⟨fun q member => ?_, unused, Function.update_self _ _ _⟩
    (fun u _ q theirs => ?_) (fun q mine => ?_)
    (fun q u held => List.mem_cons_of_mem _ (serial.held q u held))
  · exact (old q (serial.live q live)).trans (serial.bases q live)
  · refine serial.others locked differs (fun _ _ => rfl) (fun b q member => ?_) (fun _ _ => rfl)
      fun q theirs => ?_
    · exact old q (chained b q member)
    · have live := (serial.hands u q theirs).1
      exact ⟨Function.update_of_ne (ne_of_mem_of_not_mem live fresh) _ _, old q live, .rfl, .rfl⟩
  · exact fun same => here q member ((old q (chained _ q member)).symm.trans same)
  · exact (serial.hands u q theirs).imp_left (List.mem_cons_of_mem _)
  · obtain rfl : p = q := Option.some.inj mine
    refine ⟨⟨List.mem_cons_self, fun owned => ?_⟩, fun u _ theirs => ?_⟩
    · exact unused (serial.owned_live owned)
    · exact fresh (serial.hands u p theirs).1

/-- The link of the page in the own hand is written. -/
theorem relink (serial : Serialized s session) (locked : IndexLocked s)
    (before : p ∈ (s.pc t).hand) (after : pc.hand = some p) (value : Option Nat)
    (own : pc.Position { s.index with next := update s.index.next p value } session.index) :
    Serialized
      { s with
        index := { s.index with next := update s.index.next p value }
        pc := update s.pc t pc } session := by
  refine serial.advance rfl serial.linked (serial.memory.setNext (serial.outside before) value)
    serial.bases serial.live serial.owned serial.calls (fun u differs => ?_) own
    (fun u _ => serial.hands u) (fun q mine => ?_) serial.held
  · refine serial.others locked differs (fun _ _ => rfl) (fun _ _ _ => rfl) (fun _ _ => rfl)
      fun q theirs => ⟨Function.update_of_ne ?_ _ _, rfl, .rfl, .rfl⟩
    rintro rfl
    exact differs (serial.apart t u q before theirs).symm
  · obtain rfl : p = q := Option.some.inj (after.symm.trans mine)
    exact ⟨serial.hands t p before, fun u differs theirs =>
      differs (serial.apart t u p before theirs).symm⟩

theorem setHead (serial : Serialized s session) (locked : IndexLocked s)
    (position : s.pc t = .setHead base p) :
    SerialStep session
      { s with
        effects := (t, .getOrCreate base (some p), .page p true) :: s.effects
        index := { s.index with buckets := update s.index.buckets (piHash base) (some p) }
        pc := update s.pc t (.lockPage base p true) } := by
  have here := serial.position t
  have mine : p ∈ (s.pc t).hand := by rw [position]; rfl
  rw [position] at here
  obtain ⟨⟨absent, unused, same⟩, points⟩ := here
  obtain ⟨live, unowned⟩ := serial.hands t p mine
  have outside := serial.outside mine
  obtain ⟨index, called, linked, bases, alive, owned⟩ :=
    PageIndex.getOrCreate_new serial.linked (serial.map_none_of_absent absent) unused
  have chains := linked.chain_eq
  refine ⟨_, .inr ⟨_, IndexSession.step_of_call (.getOrCreate base (some p)) called⟩, ?_⟩
  have fresh : ∀ q ∈ session.index.live, q ≠ p := fun q live => ne_of_mem_of_not_mem live unused
  refine serial.advance rfl linked.own ?_ (fun q member => ?_) (fun q member => ?_)
    (fun q member => ?_) ?_ (fun u differs => ?_) ⟨?_, same⟩ (fun u _ => serial.hands u)
    (by simp [IndexPc.hand]) serial.held
  · show PageIndex.Linked _ index.chain
    rw [chains]
    exact serial.memory.publish outside live unowned same points absent
  · show s.index.base q = index.base q
    rw [alive] at member
    rw [bases]
    rcases List.mem_cons.mp member with rfl | old
    · rw [Function.update_self, same]
    · rw [Function.update_of_ne (fresh q old)]
      exact serial.bases q old
  · rw [alive] at member
    rcases List.mem_cons.mp member with rfl | old
    · exact live
    · exact serial.live q old
  · show q ∈ index.owned
    rw [owned]
    exact serial.owned q member
  · rw [List.map_cons, ← serial.calls]
  · refine serial.others locked differs (fun c other => ?_) (fun _ _ _ => rfl) (fun c other => ?_)
      fun q theirs => ⟨rfl, rfl, ?_, ?_⟩
    · show index.chain c = _
      rw [chains]
      exact Function.update_of_ne (bucket_ne position rfl other) _ _
    · exact Function.update_of_ne (bucket_ne position rfl other) _ _
    · show q ∈ index.live ↔ _
      rw [alive, List.mem_cons, or_iff_right]
      rintro rfl
      exact differs (serial.apart t u q mine theirs).symm
    · show q ∈ index.owned ↔ _
      rw [owned]
  · show p ∈ index.chain _
    rw [chains, Function.update_self]
    exact List.mem_cons_self

theorem storeNext_of_not_mem {next : Nat → Option Nat} {value : Option Nat} {before : List Nat}
    (outside : p ∉ before) : (Slot.behind before).storeNext next value p = next p := by
  rcases List.eq_nil_or_concat before with rfl | ⟨earlier, last, rfl⟩
  · rfl
  · rw [List.concat_eq_append] at outside ⊢
    rw [Slot.behind_concat]
    refine Function.update_of_ne ?_ _ _
    rintro rfl
    simp at outside

/-- A page is taken off its chain, in the memory and in the sequential index. -/
theorem unlinked (serial : Serialized s session) (locked : IndexLocked s) {call : Removal}
    {link : Slot Nat} {victim : Nat} {session' : IndexSession} {entry : IndexOp × IndexAnswer}
    (position : s.pc t = .unlink call link victim) (home : call.base = base)
    (linked : session'.index.Linked (update session.index.chain (piHash base)
      ((session.index.chain (piHash base)).erase victim)))
    (bases : session'.index.base = session.index.base)
    (fewer : ∀ q ∈ session'.index.live, q ∈ session.index.live)
    (live : ∀ q, q ≠ victim → (q ∈ session'.index.live ↔ q ∈ session.index.live))
    (owned : ∀ q, q ≠ victim → (q ∈ session'.index.owned ↔ q ∈ session.index.owned))
    (calls : session'.calls = entry :: session.calls) (hand : pc.hand = some victim)
    (own : ∀ memory, pc.Position memory session'.index) :
    Serialized
      { s with
        effects := (t, entry) :: s.effects
        index := s.index.store (piHash base) link (s.index.next victim)
        pc := update s.pc t pc } session' := by
  subst home
  have here := serial.position t
  rw [position] at here
  obtain ⟨before, after, passed, rfl, -⟩ := here
  have chains := linked.chain_eq
  have member : victim ∈ session.index.chain (piHash call.base) := by simp [passed.split]
  obtain ⟨alive, unowned⟩ := serial.memory.live _ victim member
  -- The page was on its chain, so it was in nobody's hand.
  have away : ∀ u, ∀ q ∈ (s.pc u).hand, q ≠ victim := by
    rintro u q theirs rfl
    exact serial.outside theirs _ member
  refine serial.advance rfl linked.own ?_ (fun q inside => ?_) (fun q inside => ?_)
    (fun q inside => ?_) ?_ (fun u differs => ?_) (own _) (fun u _ => serial.hands u)
    (fun q mine => ?_) serial.held
  · rw [chains]
    exact serial.memory.unlink passed.split
  · rw [bases]
    exact serial.bases q (fewer q inside)
  · exact serial.live q (fewer q inside)
  · refine (owned q ?_).mpr (serial.owned q inside)
    rintro rfl
    exact unowned inside
  · rw [calls, serial.calls]
    rfl
  · refine serial.others locked differs (fun c other => ?_) (fun _ _ _ => rfl) (fun c other => ?_)
      fun q theirs => ⟨storeNext_of_not_mem fun passedBy => ?_, rfl, live q (away u q theirs),
        owned q (away u q theirs)⟩
    · rw [chains]
      exact Function.update_of_ne (bucket_ne position rfl other) _ _
    · exact Function.update_of_ne (bucket_ne position rfl other) _ _
    · exact serial.outside theirs (piHash call.base) (by simp [passed.split, passedBy])
  · obtain rfl : victim = q := Option.some.inj (hand.symm.trans mine)
    exact ⟨⟨alive, unowned⟩, fun u _ theirs => away u victim theirs rfl⟩

theorem detach (serial : Serialized s session) (locked : IndexLocked s) {expect victim : Nat}
    {link : Slot Nat} (position : s.pc t = .unlink (.detachIf base expect) link victim) :
    SerialStep session
      { s with
        effects := (t, .detachIf base expect, .unlinked true) :: s.effects
        index := s.index.store (piHash base) link (s.index.next victim)
        pc := update s.pc t (.clearNext base expect) } := by
  have here := serial.position t
  rw [position] at here
  obtain ⟨before, after, passed, -, wanted⟩ := here
  obtain rfl : victim = expect := by simpa [Removal.wants] using wanted
  have member : victim ∈ session.index.chain (piHash base) := by
    rw [show session.index.chain (piHash base) = before ++ victim :: after from passed.split]
    simp
  obtain ⟨index, called, linked, bases, live, owned⟩ :=
    @PageIndex.detachIf_eq session.index _ base victim serial.linked
  rw [decide_eq_true member] at called
  refine ⟨_, .inr ⟨_, IndexSession.step_of_call (.detachIf base victim) called⟩, ?_⟩
  refine serial.unlinked locked position rfl linked bases (fun q inside => ?_) (fun q _ => ?_)
    (fun q differs => ?_) rfl rfl fun _ => ?_
  · exact live ▸ inside
  · rw [live]
  · rw [owned]
    exact or_iff_left fun both => differs both.1
  · exact (owned victim).mpr (.inr ⟨rfl, member⟩)

theorem remove (serial : Serialized s session) (locked : IndexLocked s) {victim : Nat}
    {link : Slot Nat} (position : s.pc t = .unlink (.remove base) link victim) :
    SerialStep session
      { s with
        effects := (t, .remove base, .done) :: s.effects
        index := s.index.store (piHash base) link (s.index.next victim)
        pc := update s.pc t (.unlockVictim base victim) } := by
  have here := serial.position t
  rw [position] at here
  obtain ⟨before, after, passed, -, wanted⟩ := here
  have member : victim ∈ session.index.chain (piHash base) := by
    rw [show session.index.chain (piHash base) = before ++ victim :: after from passed.split]
    simp
  have present := serial.map_of_mem member (by simpa [Removal.wants] using wanted)
  rcases @PageIndex.remove_eq session.index _ base serial.linked with
    ⟨absent, -⟩ | ⟨index, removed, found, called, linked, bases, live, owned⟩
  · simp [present] at absent
  -- The sequential call removes the page that the walk has come to.
  · obtain rfl : victim = removed := Option.some.inj (present.symm.trans found)
    refine ⟨_, .inr ⟨_, IndexSession.step_of_call (.remove base) called⟩, ?_⟩
    refine serial.unlinked locked position rfl linked bases (fun q inside => ?_)
      (fun q differs => ?_) (fun q differs => ?_) rfl rfl fun _ inside => ?_
    · rw [live] at inside
      exact (List.mem_filter.mp inside).1
    · rw [live]
      simp [differs]
    · rw [owned]
      simp [differs]
    · rw [live] at inside
      simp at inside

/-- `page_index_detach_if` hands its page to the caller when it returns. -/
theorem unlockShard (serial : Serialized s session) (locked : IndexLocked s) {op : IndexOp}
    {answer : IndexAnswer} (position : s.pc t = .unlockShard base op answer) :
    Serialized
      { s with
        returned := update s.returned t ((op, answer) :: s.returned t)
        shards := update s.shards (piShard (piHash base)) none
        index := { s.index with
          owned := (IndexThreads.given op answer).toList ++ s.index.owned }
        pc := update s.pc t (IndexThreads.back answer) } session := by
  have here := serial.position t
  rw [position] at here
  have mine : ∀ q ∈ (IndexThreads.given op answer).toList, q ∈ (s.pc t).hand := by
    intro q given
    rw [position]
    exact Option.mem_toList.mp given
  refine serial.advance rfl serial.linked (serial.memory.give (fun q given => ?_) fun q given => ?_)
    serial.bases serial.live (fun q owned => ?_) serial.calls (fun u differs => ?_) ?_
    (fun u differs q theirs => ?_) ?_ serial.held
  · exact serial.outside (mine q given)
  · exact (serial.hands t q (mine q given)).1
  · rcases List.mem_append.mp owned with given | old
    · exact here q (Option.mem_toList.mp given)
    · exact serial.owned q old
  · exact serial.others locked differs (fun _ _ => rfl) (fun _ _ _ => rfl) (fun _ _ => rfl)
      fun _ _ => ⟨rfl, rfl, .rfl, .rfl⟩
  · cases answer <;> trivial
  · obtain ⟨live, unowned⟩ := serial.hands u q theirs
    refine ⟨live, fun owned => ?_⟩
    rcases List.mem_append.mp owned with given | old
    · exact differs (serial.apart t u q (mine q given) theirs).symm
    · exact unowned old
  · cases answer <;> simp [IndexThreads.back, IndexPc.hand]

/-- Memory that nobody else can reach is freed. -/
theorem released (serial : Serialized s session) (locked : IndexLocked s) {victim : Nat}
    (position : s.pc t = .freeVictim base victim) (unlocked : s.lock victim = none) :
    Serialized
      { s with
        returned := update s.returned t ((.remove base, .done) :: s.returned t)
        index := s.index.release victim
        pc := update s.pc t .idle } session := by
  have here := serial.position t
  have mine : victim ∈ (s.pc t).hand := by rw [position]; rfl
  rw [position] at here
  have kept : ∀ {q}, q ∈ s.index.live → q ≠ victim → q ∈ (s.index.release victim).live := by
    intro q live differs
    simpa [PageIndex.release, differs] using live
  refine serial.advance rfl serial.linked (serial.memory.release (serial.outside mine))
    serial.bases (fun q live => ?_) (fun q owned => ?_) serial.calls (fun u differs => ?_) trivial
    (fun u differs q theirs => ?_) (by simp [IndexPc.hand]) (fun q u held => ?_)
  · refine kept (serial.live q live) ?_
    rintro rfl
    exact here live
  · exact serial.owned q (List.mem_filter.mp owned).1
  · exact serial.others locked differs (fun _ _ => rfl) (fun _ _ _ => rfl) (fun _ _ => rfl)
      fun _ _ => ⟨rfl, rfl, .rfl, .rfl⟩
  · obtain ⟨live, unowned⟩ := serial.hands u q theirs
    refine ⟨kept live ?_, fun owned => unowned (List.mem_filter.mp owned).1⟩
    rintro rfl
    exact differs (serial.apart t u q mine theirs).symm
  · refine kept (serial.held q u held) ?_
    rintro rfl
    simp [unlocked] at held

/-- A detached page is freed. -/
theorem free (serial : Serialized s session) (owned : p ∈ s.index.owned)
    (unlocked : s.lock p = none) :
    SerialStep session
      { s with
        effects := (t, .free p, .done) :: s.effects
        returned := update s.returned t ((.free p, .done) :: s.returned t)
        index := s.index.release p } := by
  have given := serial.owned p owned
  have outside : ∀ b, p ∉ session.index.chain b := fun b member =>
    (serial.linked.live b p member).2 given
  have linked := serial.linked.release outside
  have called : session.index.call (.free p) = some (session.index.release p, .done) := by
    simp [PageIndex.call, given]
  have kept : ∀ {q} {index : PageIndex}, q ∈ index.live → q ≠ p → q ∈ (index.release p).live := by
    intro q index live differs
    simpa [PageIndex.release, differs] using live
  -- A page in a hand has not been given away.
  have away : ∀ u, ∀ q ∈ (s.pc u).hand, q ≠ p := by
    rintro u q theirs rfl
    exact (serial.hands u q theirs).2 owned
  refine ⟨_, .inr ⟨_, IndexSession.step_of_call _ called⟩, linked.own, ?_, fun q live => ?_,
    fun q live => ?_, fun q mine => ?_, ?_, fun u => ?_, fun u q theirs => ?_, serial.apart,
    fun q u held => ?_⟩
  · show PageIndex.Linked _ (session.index.release p).chain
    rw [linked.chain_eq]
    exact serial.memory.release outside
  · exact serial.bases q (List.mem_filter.mp live).1
  · obtain ⟨live, differs⟩ := List.mem_filter.mp live
    exact kept (serial.live q live) (by simpa using differs)
  · obtain ⟨mine, differs⟩ := List.mem_filter.mp mine
    exact List.mem_filter.mpr ⟨serial.owned q mine, differs⟩
  · rw [List.map_cons, ← serial.calls]
  · refine (serial.position u).frame (fun b _ => congrFun linked.chain_eq b) (fun _ _ _ => rfl)
      (fun _ _ => rfl) fun q theirs => ⟨rfl, rfl, ?_, ?_⟩
    · simp [PageIndex.release, away u q theirs]
    · simp [PageIndex.release, away u q theirs]
  · obtain ⟨live, unowned⟩ := serial.hands u q theirs
    exact ⟨kept live (away u q theirs), fun mine => unowned (List.mem_filter.mp mine).1⟩
  · refine kept (serial.held q u held) ?_
    rintro rfl
    simp [unlocked] at held

/-! ## Every statement -/

/-- A loop that ends without a match is a call that finds nothing. -/
theorem missed (serial : Serialized s session) {call : Removal} {link : Slot Nat}
    (position : s.pc t = .scan call link)
    (ends : link.load s.index.next (s.index.buckets (piHash call.base)) = none) :
    session.index.call call.op = some (session.index, call.missed) := by
  obtain ⟨before, after, passed, -, loads⟩ := serial.scanned position
  obtain rfl := List.head?_eq_none_iff.mp (loads.symm.trans ends)
  have none_ : ∀ q ∈ session.index.chain (piHash call.base), call.wants s.index.base q = false := by
    intro q member
    rw [passed.split, List.append_nil] at member
    exact passed.earlier q member
  cases call with
  | detachIf base expect =>
    refine PageIndex.detachIf_absent serial.linked fun member => ?_
    simpa [Removal.wants] using none_ expect member
  | remove base =>
    have absent : session.index.map base = none :=
      serial.map_none_of_absent fun q member => by simpa [Removal.wants] using none_ q member
    rcases @PageIndex.remove_eq session.index _ base serial.linked with
      ⟨-, removed⟩ | ⟨_, _, found, -⟩
    · exact removed
    · simp [absent] at found

/-- The call of `t` takes effect, and the memory stays as it is. -/
theorem reads (serial : Serialized s session) {op : IndexOp} {answer : IndexAnswer}
    (called : session.index.call op = some (session.index, answer))
    (own : pc.Position s.index session.index) (empty : pc.hand = none) :
    SerialStep session
      { s with effects := (t, op, answer) :: s.effects, pc := update s.pc t pc } := by
  refine ⟨_, .inr ⟨op, IndexSession.step_of_call op called⟩,
    serial.quiet rfl rfl ?_ own (.inl empty) serial.held⟩
  rw [List.map_cons, ← serial.calls]

/-- The lock of a page that is allocated is taken, or one is given up. -/
theorem held_update (serial : Serialized s session) {holder : Option (Fin n)}
    (alive : holder ≠ none → p ∈ s.index.live) :
    ∀ q u, update s.lock p holder q = some u → q ∈ s.index.live := by
  intro q u held
  by_cases same : q = p
  · subst same
    rw [Function.update_self] at held
    exact alive (by simp [held])
  · rw [Function.update_of_ne same] at held
    exact serial.held q u held

theorem still (serial : Serialized s session) (own : pc.Position s.index session.index)
    (empty : pc.hand = none) : SerialStep session { s with pc := update s.pc t pc } :=
  ⟨session, .inl rfl, serial.quiet rfl rfl serial.calls own (.inl empty) serial.held⟩

theorem step (serial : Serialized s session) (locked : IndexLocked s) (careful : s.Careful label)
    (move : IndexMove s label s') : SerialStep session s' := by
  cases move with
  | call position => exact serial.still trivial rfl
  | @lockShard t call position free =>
    refine ⟨session, .inl rfl, serial.quiet rfl rfl serial.calls ?_ (.inl ?_) serial.held⟩
    · cases call with
      | getOrCreate base => trivial
      | removal call => exact ⟨[], _, ⟨rfl, by simp⟩, rfl⟩
    · cases call <;> rfl
  | start position => exact serial.still (serial.start _) rfl
  | ended position => exact serial.still (serial.ended position) rfl
  | @hit t base p position same =>
    obtain ⟨before, after, passed⟩ := serial.compared position
    have member : p ∈ session.index.chain (piHash base) := by simp [passed.split]
    have called : session.index.getOrCreate base none = some (session.index, .page p false) :=
      PageIndex.getOrCreate_found serial.linked (serial.map_of_mem member same)
    exact serial.reads called ⟨member, same⟩ rfl
  | @pass t base p position other =>
    obtain ⟨before, after, passed⟩ := serial.compared position
    exact serial.still ⟨before, after, passed.next (by simpa using other)⟩ rfl
  | next position => exact serial.still (serial.next position) rfl
  | @oom t base position =>
    have absent := serial.position t
    rw [position] at absent
    exact serial.reads (PageIndex.getOrCreate_oom serial.linked (serial.map_none_of_absent absent))
      (by simp [IndexPc.Position, IndexThreads.given]) rfl
  | alloc position fresh => exact ⟨session, .inl rfl, serial.alloc locked position fresh⟩
  | @setNext t base p position =>
    have here := serial.position t
    rw [position] at here
    exact ⟨session, .inl rfl, serial.relink locked (by rw [position]; rfl) rfl _
      ⟨here, Function.update_self _ _ _⟩⟩
  | setHead position => exact serial.setHead locked position
  | @lockPage t base p created position free =>
    have here := serial.position t
    rw [position] at here
    refine ⟨session, .inl rfl, serial.quiet rfl rfl serial.calls
      (by simp [IndexPc.Position, IndexThreads.given]) (.inl rfl)
      (serial.held_update fun _ => ?_)⟩
    exact (serial.memory.live _ p here.1).1
  | @missed t call link position ends =>
    have called := serial.missed position ends
    cases call with
    | detachIf base expect =>
      exact serial.reads called (by simp [IndexPc.Position, IndexThreads.given, Removal.op,
        Removal.missed]) rfl
    | remove base =>
      exact serial.reads called (by simp [IndexPc.Position, IndexThreads.given, Removal.op,
        Removal.missed]) rfl
  | @found t call link p position loads wanted =>
    obtain ⟨before, after, passed, rfl, loaded⟩ := serial.scanned position
    obtain ⟨rest, rfl⟩ := List.head?_eq_some_iff.mp (loaded.symm.trans loads)
    exact serial.still ⟨before, rest, passed, rfl, wanted⟩ rfl
  | @skip t call link p position loads unwanted =>
    obtain ⟨before, after, passed, rfl, loaded⟩ := serial.scanned position
    obtain ⟨rest, rfl⟩ := List.head?_eq_some_iff.mp (loaded.symm.trans loads)
    exact serial.still ⟨before ++ [p], rest, passed.next unwanted, Slot.behind_concat.symm⟩ rfl
  | detach position => exact serial.detach locked position
  | remove position => exact serial.remove locked position
  | @clearNext t base expect position =>
    have here := serial.position t
    rw [position] at here
    refine ⟨session, .inl rfl, serial.relink locked (by rw [position]; rfl) rfl none ?_⟩
    intro q given
    obtain rfl : expect = q := Option.some.inj given
    exact here
  | unlockShard position => exact ⟨session, .inl rfl, serial.unlockShard locked position⟩
  | @unlockVictim t base victim position =>
    have here := serial.position t
    rw [position] at here
    exact ⟨session, .inl rfl, serial.quiet rfl rfl serial.calls here
      (.inr (by rw [position]; rfl)) serial.held⟩
  | @freeVictim t base victim position =>
    have unlocked : s.lock victim = none := careful victim (by rw [position]; rfl)
    exact ⟨session, .inl rfl, serial.released locked position unlocked⟩
  | @enter t p position free =>
    exact ⟨session, .inl rfl, serial.quiet rfl rfl serial.calls trivial (.inl rfl)
      (serial.held_update fun _ => careful)⟩
  | @leave t p position =>
    exact ⟨session, .inl rfl, serial.quiet rfl rfl serial.calls trivial (.inl rfl)
      (serial.held_update fun locks => absurd rfl locks)⟩
  | free position owned => exact serial.free owned careful

end Serialized

/-! ## Every run -/

theorem IndexLocked.create : IndexLocked (IndexThreads.create n) := by
  constructor <;>
    simp [IndexThreads.create, Consistent, IndexPc.shard, IndexPc.bucket, IndexPc.page]

theorem Serialized.create : Serialized (IndexThreads.create n) .start where
  linked := PageIndex.Linked.create.own
  memory := PageIndex.Linked.create.own
  bases := by simp [IndexSession.start, PageIndex.create]
  live := by simp [IndexSession.start, PageIndex.create]
  owned := by simp [IndexThreads.create, PageIndex.create]
  calls := rfl
  position _ := trivial
  hands := by simp [IndexThreads.create, IndexPc.hand]
  apart := by simp [IndexThreads.create, IndexPc.hand]
  held := by simp [IndexThreads.create]

/-- The page that holds the link. -/
def slotPage : Slot Nat → List Nat
  | .head => []
  | .after p => [p]

/-- The pages whose memory the next statement of `t` reads, writes or frees. -/
def IndexThreads.touched (s : IndexThreads n) (t : Fin n) : List Nat :=
  match s.pc t with
  | .compare _ p => p.toList
  | .next _ p | .setNext _ p | .lockPage _ p _ | .clearNext _ p | .freeVictim _ p | .inside p => [p]
  | .scan call link =>
    slotPage link ++ (link.load s.index.next (s.index.buckets (piHash call.base))).toList
  | .unlink _ link victim => slotPage link ++ [victim]
  | .idle | .lockShard _ | .start _ | .alloc _ | .setHead _ _ | .unlockShard _ _ _
  | .unlockVictim _ _ => []

theorem mem_of_slotPage {before : List Nat} {p : Nat} (member : p ∈ slotPage (.behind before)) :
    p ∈ before := by
  rcases List.eq_nil_or_concat before with rfl | ⟨earlier, last, rfl⟩
  · simp [slotPage, Slot.behind] at member
  · rw [List.concat_eq_append] at member ⊢
    rw [Slot.behind_concat] at member
    simp [List.mem_singleton.mp member]

theorem Serialized.live_of_touched {session : IndexSession} {t : Fin n} {p : Nat}
    (serial : Serialized s session) (locked : IndexLocked s) (touched : p ∈ s.touched t) :
    p ∈ s.index.live := by
  have chained : ∀ {b}, p ∈ session.index.chain b → p ∈ s.index.live := fun member =>
    (serial.memory.live _ p member).1
  have handed : p ∈ (s.pc t).hand → p ∈ s.index.live := fun mine => (serial.hands t p mine).1
  have here := serial.position t
  rw [IndexThreads.touched] at touched
  cases position : s.pc t with
  | idle | lockShard _ | start _ | alloc _ | setHead _ _ | unlockShard _ _ _ | unlockVictim _ _ =>
    simp [position] at touched
  | compare base found =>
    obtain rfl : found = some p := by simpa [position] using touched
    obtain ⟨before, after, passed⟩ := serial.compared position
    exact chained (b := piHash base) (by simp [passed.split])
  | next base q =>
    obtain rfl : p = q := by simpa [position] using touched
    rw [position] at here
    obtain ⟨before, after, passed⟩ := here
    exact chained (b := piHash base) (by simp [passed.split])
  | lockPage base q created =>
    obtain rfl : p = q := by simpa [position] using touched
    rw [position] at here
    exact chained here.1
  | setNext base q =>
    obtain rfl : p = q := by simpa [position] using touched
    exact handed (by rw [position]; rfl)
  | clearNext base q =>
    obtain rfl : p = q := by simpa [position] using touched
    exact handed (by rw [position]; rfl)
  | freeVictim base q =>
    obtain rfl : p = q := by simpa [position] using touched
    exact handed (by rw [position]; rfl)
  | inside q =>
    obtain rfl : p = q := by simpa [position] using touched
    exact serial.held p t ((locked.pages p t).mpr (congrArg IndexPc.page position))
  | scan call link =>
    rw [position] at touched
    obtain ⟨before, after, passed, rfl, loads⟩ := serial.scanned position
    simp only [loads] at touched
    refine chained (b := piHash call.base) ?_
    rw [passed.split]
    rcases List.mem_append.mp touched with earlier | later
    · exact List.mem_append_left _ (mem_of_slotPage earlier)
    · exact List.mem_append_right _ (List.mem_of_mem_head? (Option.mem_toList.mp later))
  | unlink call link victim =>
    rw [position] at touched here
    obtain ⟨before, after, passed, rfl, -⟩ := here
    refine chained (b := piHash call.base) ?_
    rw [passed.split]
    rcases List.mem_append.mp touched with earlier | later
    · exact List.mem_append_left _ (mem_of_slotPage earlier)
    · simp [List.mem_singleton.mp later]

/-- In every state of every run, however the statements of the threads are interleaved: the calls
that have taken effect are a run of the sequential index with the same answers, and the memory has
its chains also while calls are under way; each call of a thread takes effect once, before it
returns, with the answer that it returns; a page that `page_index_get_or_create` has found or made
stays in the index until the call has its lock; and no statement touches memory that is not
allocated. -/
theorem index_linearizable
    (run : Run IndexThreads.step IndexThreads.Careful (IndexThreads.create n) s) :
    (∃ session, Run IndexSession.step (fun _ _ => True) .start session ∧
      session.calls = s.effects.map Prod.snd ∧ s.index.Linked session.index.chain ∧
      (∀ b, ∀ p ∈ session.index.chain b, s.index.base p = session.index.base p) ∧
      ∀ t base p created, s.pc t = .lockPage base p created →
        session.index.map base = some p) ∧
    (∀ t, s.effectsOf t = (s.pc t).decided.toList ++ s.returned t) ∧
    ∀ t, ∀ p ∈ s.touched t, p ∈ s.index.live := by
  obtain ⟨locked, recorded, session, sequential, serial⟩ : IndexLocked s ∧ EffectsReturn s ∧
      ∃ session, Run IndexSession.step (fun _ _ => True) .start session ∧
        Serialized s session := by
    refine run.invariant (fun s => IndexLocked s ∧ EffectsReturn s ∧ ∃ session,
      Run IndexSession.step (fun _ _ => True) .start session ∧ Serialized s session) ?_ ?_
    · exact ⟨.create, fun t => rfl, .start, .refl, .create⟩
    · rintro middle last label ⟨locked, recorded, session, sequential, serial⟩ careful stepped
      have move := indexMove_of_step stepped
      obtain ⟨session', made, after⟩ := serial.step locked careful move
      refine ⟨locked.step move, recorded.step move, session', ?_, after⟩
      rcases made with rfl | ⟨op, called⟩
      · exact sequential
      · exact .tail sequential trivial called
  refine ⟨⟨session, sequential, serial.calls, serial.memory, fun b p member => ?_,
    fun t base p created position => ?_⟩, recorded, fun t p => serial.live_of_touched locked⟩
  · exact serial.bases p (serial.linked.live b p member).1
  · have here := serial.position t
    rw [position] at here
    exact serial.map_of_mem here.1 here.2

/-- Two threads in one bucket: the second one waits for the shard, walks past the page of the first
and puts its own before it, while the first has the lock of its page. -/
theorem index_linearizable_of_collision :
    ∃ s : IndexThreads 2, s.pc 0 = .inside 1 ∧ s.pc 1 = .lockPage collidingBase 2 true ∧
      s.effectsOf 0 = s.returned 0 ∧
      ∃ session, Run IndexSession.step (fun _ _ => True) .start session ∧
        session.calls = s.effects.map Prod.snd ∧ session.index.map collidingBase = some 2 := by
  have reached : ∃ s : IndexThreads 2,
      Run IndexThreads.step IndexThreads.Careful (IndexThreads.create 2) s ∧
        s.pc 0 = .inside 1 ∧ s.pc 1 = .lockPage collidingBase 2 true :=
    Run.exists_of_follow (IndexThreads.create 2) (fun s label => decide (s.Careful label))
      ([.call 0 (.getOrCreate 0), .call 1 (.getOrCreate collidingBase)] ++
        List.replicate 3 (.step 0) ++ [.alloc 0 (some 1)] ++ List.replicate 4 (.step 0) ++
        List.replicate 5 (.step 1) ++ [.alloc 1 (some 2)] ++ List.replicate 2 (.step 1))
      (fun _ _ passed => of_decide_eq_true passed)
      (fun s => s.pc 0 = .inside 1 ∧ s.pc 1 = .lockPage collidingBase 2 true) (by decide +kernel)
  obtain ⟨s, run, first, second⟩ := reached
  obtain ⟨⟨session, sequential, calls, -, -, locks⟩, recorded, -⟩ := index_linearizable run
  refine ⟨s, first, second, ?_, session, sequential, calls, locks 1 _ _ _ second⟩
  rw [recorded 0, first]
  rfl

end NoxDB

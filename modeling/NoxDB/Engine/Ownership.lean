import NoxDB.Engine.Custody
import NoxDB.Library.Lists
import NoxDB.Library.Locks
import Mathlib.Data.List.Perm.Basic

/-! # The ownership invariant

What holds of custody in every reachable state, whatever the writers, the device and
the allocator do: locks are exclusive, a page is queued at most once, `in_queue` says
where it is, a page that Stage-2 tagged is out of the index and in nobody's hands.
Each way custody changes hands keeps it.
-/

namespace NoxDB

open Function (update)
open Library.Lists
open Library.Locks

variable {n : Nat}

namespace Custody

def Alive (c : Custody n) (p : PageId) : Prop := p < c.created ∧ c.freed p = false

/-- A page as the allocator returned it, before its creator merged anything. -/
def Fresh (c : Custody n) (p : PageId) : Prop :=
  p ∉ c.pipe ∧ c.entries p = [] ∧ c.tag p = .opened ∧ c.inQueue p = false

/-- The shard lock that goes with a role. -/
def gate : Role → Option Nat
  | .wants base _ => some (Engine.shardOf base)
  | _ => none

/-- What a thread in a role may rely on. -/
def Rights (c : Custody n) (o : Owner n) : Role → Prop
  | .none => True
  | .wants base p => p ∈ c.buckets (piHash base) ∧ c.base p = base ∧ ∃ t, o = .fg t
  | .holds p fresh => c.Alive p ∧ p ∉ c.tagged ∧ (fresh = true → c.Fresh p)
  | .pushing p _ => c.Alive p ∧ p ∉ c.pipe
  | .points p => p < c.created

/-- Some thread is about to push the page. -/
def Pushing (role : Owner n → Role) (p : PageId) : Prop := ∃ o e, role o = .pushing p e

structure Ownership (c : Custody n) : Prop where
  nodup : c.pipe.Nodup
  live : ∀ p ∈ c.pipe, c.Alive p
  flushing : ∀ p ∈ c.tagged, c.tag p = .flushing
  tagged : ∀ p, c.tag p = .flushing → p ∈ c.tagged ∨ c.freed p = true
  unlinked : ∀ p ∈ c.tagged ++ c.unlinked.toList, ∀ b, p ∉ c.buckets b
  queued : ∀ p, c.inQueue p = true ↔ p ∈ c.waiting ∨ Pushing c.role p
  locked : Consistent c.lock fun o => (c.role o).held
  rights : ∀ o, c.Rights o (c.role o)
  sharded : Consistent c.shard fun t => gate (c.role (.fg t))
  indexed : ∀ b, ∀ p ∈ c.buckets b, c.Alive p ∧ piHash (c.base p) = b
  chain : ∀ b, (c.buckets b).Nodup
  single : ∀ b, ∀ p ∈ c.buckets b, ∀ q ∈ c.buckets b, c.base p = c.base q → p = q
  address : ∀ p q, c.Alive p → c.Alive q → c.addr p = c.addr q → p = q
  detached : ∀ p, c.detached p = true → p ∈ c.tagged ++ c.unlinked.toList ∨ c.freed p = true
  unborn : ∀ p, c.freed p = true → p < c.created

theorem pushing_update {role : Owner n → Role} {o : Owner n} {r : Role} {p : PageId}
    (before : ∀ e, role o ≠ .pushing p e) (after : ∀ e, r ≠ .pushing p e) :
    Pushing (update role o r) p ↔ Pushing role p := by
  constructor
  · rintro ⟨other, e, pushes⟩
    by_cases same : other = o
    · subst same
      exact absurd (by simpa using pushes) (after e)
    · exact ⟨other, e, by simpa [same] using pushes⟩
  · rintro ⟨other, e, pushes⟩
    have differs : other ≠ o := by
      rintro rfl
      exact before e pushes
    exact ⟨other, e, by simpa [differs] using pushes⟩

theorem gate_update (role : Owner n → Role) (t : Fin n) (r : Role) :
    (fun t' => gate (update role (.fg t) r (.fg t'))) =
      update (fun t' => gate (role (.fg t'))) t (gate r) := by
  funext t'
  by_cases same : t' = t
  · subst same; simp
  · simp [same]

theorem gate_update_closer (role : Owner n → Role) (r : Role) :
    (fun t' => gate (update role .closer r (.fg t'))) = fun t' => gate (role (.fg t')) := by
  funext t'
  simp

theorem mem_pipe_of_tagged {c : Custody n} {p : PageId} (member : p ∈ c.tagged) : p ∈ c.pipe :=
  List.mem_append_left _ member

theorem mem_pipe_of_waiting {c : Custody n} {p : PageId} (member : p ∈ c.waiting) : p ∈ c.pipe :=
  List.mem_append_right _ member

theorem mem_pipe_of_unlinked {c : Custody n} {p : PageId}
    (member : p ∈ c.tagged ++ c.unlinked.toList) : p ∈ c.pipe := by
  rcases List.mem_append.mp member with tagged | unlinked
  · exact mem_pipe_of_tagged tagged
  · exact mem_pipe_of_waiting (List.mem_append_left _ (List.mem_append_left _ unlinked))

theorem unlinkAddr_sublist (c : Custody n) (base address b : Nat) :
    (c.unlinkAddr base address b).Sublist (c.buckets b) := by
  by_cases same : b = piHash base
  · subst same
    simpa [unlinkAddr] using List.eraseP_sublist
  · simp [unlinkAddr, same]

theorem mem_of_mem_unlinkAddr {c : Custody n} {base address b p : Nat}
    (member : p ∈ c.unlinkAddr base address b) : p ∈ c.buckets b :=
  (c.unlinkAddr_sublist base address b).subset member

namespace Ownership

variable {c : Custody n} (inv : c.Ownership)

theorem rights_update {c' : Custody n} {o : Owner n} {r : Role} (inv : c.Ownership)
    (mine : c'.Rights o r)
    (others : ∀ other, other ≠ o → c.Rights other (c.role other) → c'.Rights other (c.role other)) :
    ∀ other, c'.Rights other (update c.role o r other) := by
  intro other
  by_cases same : other = o
  · subst same; simpa using mine
  · simpa [same] using others other same (inv.rights other)

theorem locked_quiet (inv : c.Ownership) {o : Owner n} {r : Role} (same : r.held = (c.role o).held) :
    Consistent c.lock fun other => (update c.role o r other).held :=
  inv.locked.quiet same

theorem sharded_quiet (inv : c.Ownership) {o : Owner n} {r : Role} (same : gate r = gate (c.role o)) :
    Consistent c.shard fun t => gate (update c.role o r (.fg t)) := by
  cases o with
  | fg t => rw [gate_update, same]; simpa using inv.sharded
  | closer => rw [gate_update_closer]; exact inv.sharded

include inv

theorem want {t base p} (idle : c.role (.fg t) = .none)
    (free : c.shard (Engine.shardOf base) = none) (member : p ∈ c.buckets (piHash base))
    (found : c.base p = base) :
    Ownership
        { c with
          role := update c.role (.fg t) (.wants base p)
          shard := update c.shard (Engine.shardOf base) (some t) } := by
  refine { inv with
    queued := fun q => ?_
    locked := inv.locked_quiet (by simp [idle, Role.held])
    rights := inv.rights_update ⟨member, found, t, rfl⟩ fun _ _ rights => rights
    sharded := ?_ }
  · rw [pushing_update (by simp [idle]) (by simp)]
    exact inv.queued q
  · rw [gate_update]
    exact inv.sharded.acquire free (by simp [idle, gate])

theorem acquire {t base p} (waits : c.role (.fg t) = .wants base p) (free : c.lock p = none) :
    Ownership
        { c with
          role := update c.role (.fg t) (.holds p false)
          lock := update c.lock p (some (.fg t))
          shard := update c.shard (Engine.shardOf base) none } := by
  have rights := inv.rights (.fg t)
  rw [waits] at rights
  have untagged : p ∉ c.tagged := fun member =>
    inv.unlinked p (by simp [member]) _ rights.1
  refine { inv with
    queued := fun q => ?_
    locked := ?_
    rights := inv.rights_update ⟨(inv.indexed _ p rights.1).1, untagged, by simp⟩
      fun _ _ rights => rights
    sharded := ?_ }
  · rw [pushing_update (by simp [waits]) (by simp)]
    exact inv.queued q
  · rw [map_update Role.held]
    exact inv.locked.acquire free (by simp [waits, Role.held])
  · rw [gate_update]
    exact inv.sharded.release (by simp [waits, gate])

theorem same_holder {o other p} (first : (c.role o).held = some p)
    (second : (c.role other).held = some p) : o = other :=
  inv.locked.exclusive first second

theorem alive_of_held {o p} (held : (c.role o).held = some p) : c.Alive p ∧ p ∉ c.tagged := by
  have rights := inv.rights o
  cases role : c.role o with
  | holds q fresh =>
    rw [role] at held rights
    obtain rfl : q = p := by simpa [Role.held] using held
    exact ⟨rights.1, rights.2.1⟩
  | pushing q e =>
    rw [role] at held rights
    obtain rfl : q = p := by simpa [Role.held] using held
    exact ⟨rights.1, fun member => rights.2 (by simp [pipe, member])⟩
  | none => simp [role, Role.held] at held
  | wants => simp [role, Role.held] at held
  | points => simp [role, Role.held] at held

theorem lock_created : c.lock c.created = none := by
  cases locked : c.lock c.created with
  | none => rfl
  | some o => exact absurd (inv.alive_of_held ((inv.locked _ _).mp locked)).1.1 (lt_irrefl _)

theorem not_pushing_of_free {p} (free : c.lock p = none) : ¬ Pushing c.role p := by
  rintro ⟨o, e, pushes⟩
  exact inv.locked.not_held_of_free free o (by simp [pushes, Role.held])

theorem create {t base address} (idle : c.role (.fg t) = .none)
    (absent : ∀ p ∈ c.buckets (piHash base), c.base p ≠ base)
    (unused : ∀ q < c.created, c.freed q = false → c.addr q ≠ address) :
    Ownership
        { c with
          role := update c.role (.fg t) (.holds c.created true)
          lock := update c.lock c.created (some (.fg t))
          created := c.created + 1
          buckets := update c.buckets (piHash base) (c.created :: c.buckets (piHash base))
          addr := update c.addr c.created address
          base := update c.base c.created base
          tag := update c.tag c.created .opened
          entries := update c.entries c.created []
          inQueue := update c.inQueue c.created false
          detached := update c.detached c.created false } := by
  have outside : c.created ∉ c.pipe := fun member => lt_irrefl _ (inv.live _ member).1
  have alive : c.freed c.created = false := by
    cases freed : c.freed c.created with
    | false => rfl
    | true => exact absurd (inv.unborn _ freed) (lt_irrefl _)
  -- The new page is in no list, in no chain and free of any lock.
  have unindexed : ∀ b, c.created ∉ c.buckets b := fun b member =>
    lt_irrefl _ (inv.indexed b _ member).1.1
  have older : ∀ {q}, c.Alive q → q ≠ c.created := fun alive => Nat.ne_of_lt alive.1
  have queuedOlder : ∀ {q}, q ∈ c.pipe → q ≠ c.created := fun member => older (inv.live _ member)
  refine { inv with
    live := fun p member => ⟨Nat.lt_succ_of_lt (inv.live p member).1, (inv.live p member).2⟩
    flushing := fun p member => ?_
    tagged := fun p flushing => ?_
    unlinked := fun p member b => ?_
    queued := fun q => ?_
    locked := ?_
    rights := ?_
    sharded := inv.sharded_quiet (by simp [idle, gate])
    indexed := fun b p member => ?_
    chain := fun b => ?_
    single := fun b p first q second same => ?_
    address := fun p q first second same => ?_
    detached := fun p detached => ?_
    unborn := fun p freed => Nat.lt_succ_of_lt (inv.unborn p freed) }
  · simpa [queuedOlder (mem_pipe_of_tagged member)] using inv.flushing p member
  · by_cases same : p = c.created
    · simp [same] at flushing
    · exact inv.tagged p (by simpa [same] using flushing)
  -- `unlinked`
  · rw [mem_update_cons]
    rintro (⟨-, same⟩ | linked)
    · exact queuedOlder (mem_pipe_of_unlinked member) same
    · exact inv.unlinked p member b linked
  -- `queued`: not in a list yet, and whoever pushes holds the lock of an older page.
  · have current := inv.queued q
    rw [pushing_update (by simp [idle]) (by simp)]
    dsimp only
    by_cases same : q = c.created
    · subst same
      have unpushed := inv.not_pushing_of_free inv.lock_created
      rw [Function.update_self]
      refine ⟨fun absurd => by simp at absurd, ?_⟩
      rintro (member | pushes)
      · exact absurd (mem_pipe_of_waiting member) outside
      · exact absurd pushes unpushed
    · rw [Function.update_of_ne same]
      exact current
  -- `locked`
  · rw [map_update Role.held]
    exact inv.locked.acquire inv.lock_created (by simp [idle, Role.held])
  -- `rights`: the creator holds a fresh page; the others' pages are older.
  · refine inv.rights_update ⟨⟨Nat.lt_succ_self _, alive⟩,
      fun member => outside (mem_pipe_of_tagged member),
      fun _ => ⟨outside, by simp, by simp, by simp⟩⟩ fun other differs rights => ?_
    cases role : c.role other with
    | none => trivial
    | wants base' q =>
      rw [role] at rights
      obtain ⟨member, found, mine⟩ := rights
      have := older (inv.indexed _ _ member).1
      refine ⟨?_, by simpa [this] using found, mine⟩
      rw [mem_update_cons]
      exact .inr member
    | holds q fresh =>
      rw [role] at rights
      obtain ⟨alive, untagged, isFresh⟩ := rights
      refine ⟨⟨Nat.lt_succ_of_lt alive.1, alive.2⟩, untagged, fun fresh => ?_⟩
      obtain ⟨outside, blank⟩ := isFresh fresh
      exact ⟨outside, by simpa [older alive] using blank⟩
    | pushing q e =>
      rw [role] at rights
      exact ⟨⟨Nat.lt_succ_of_lt rights.1.1, rights.1.2⟩, rights.2⟩
    | points q =>
      rw [role] at rights
      exact Nat.lt_succ_of_lt rights
  -- `indexed`
  · rcases mem_update_cons.mp member with ⟨rfl, rfl⟩ | linked
    · exact ⟨⟨Nat.lt_succ_self _, alive⟩, by simp⟩
    · obtain ⟨alive, hashed⟩ := inv.indexed b p linked
      exact ⟨⟨Nat.lt_succ_of_lt alive.1, alive.2⟩, by simpa [older alive] using hashed⟩
  · by_cases same : b = piHash base
    · subst same
      simpa using ⟨unindexed _, inv.chain _⟩
    · simpa [same] using inv.chain b
  -- `single`: the bucket was searched before the page was made, so no other has its base.
  · rcases mem_update_cons.mp first with ⟨rfl, rfl⟩ | firstLinked <;>
      rcases mem_update_cons.mp second with ⟨bucket, rfl⟩ | secondLinked
    · rfl
    · have differs := older (inv.indexed _ _ secondLinked).1
      exact absurd (by simpa [differs] using same.symm) (absent q secondLinked)
    · have differs := older (inv.indexed _ _ firstLinked).1
      exact absurd (by simpa [differs] using same) (absent p (bucket ▸ firstLinked))
    · have firstOlder := older (inv.indexed _ _ firstLinked).1
      have secondOlder := older (inv.indexed _ _ secondLinked).1
      exact inv.single b p firstLinked q secondLinked (by simpa [firstOlder, secondOlder] using same)
  -- `address`: `malloc` returns an address no live page has.
  · have current := inv.address p q
    simp only [Alive] at first second current
    by_cases firstNew : p = c.created <;> by_cases secondNew : q = c.created
    · rw [firstNew, secondNew]
    · have differs := unused q (Nat.lt_of_le_of_ne (Nat.lt_succ_iff.mp second.1) secondNew) second.2
      exact absurd (by simpa [firstNew, secondNew] using same.symm) differs
    · have differs := unused p (Nat.lt_of_le_of_ne (Nat.lt_succ_iff.mp first.1) firstNew) first.2
      exact absurd (by simpa [firstNew, secondNew] using same) differs
    · exact current ⟨Nat.lt_of_le_of_ne (Nat.lt_succ_iff.mp first.1) firstNew, first.2⟩
        ⟨Nat.lt_of_le_of_ne (Nat.lt_succ_iff.mp second.1) secondNew, second.2⟩
        (by simpa [firstNew, secondNew] using same)
  · by_cases same : p = c.created
    · simp [same] at detached
    · exact inv.detached p (by simpa [same] using detached)

theorem untouched_fresh {p} (free : c.lock p = none) {o} : c.role o ≠ .holds p true := fun role =>
  inv.locked.not_held_of_free free o (by simp [role, Role.held])

omit inv in
/-- Changing the header of a page matters only to a thread that holds it fresh. -/
theorem rights_touch {o r p tag entries inQueue} (tags : ∀ q ≠ p, tag q = c.tag q)
    (lists : ∀ q ≠ p, entries q = c.entries q) (flags : ∀ q ≠ p, inQueue q = c.inQueue q)
    (differs : r ≠ .holds p true) (rights : c.Rights o r) :
    Rights { c with tag := tag, entries := entries, inQueue := inQueue } o r := by
  cases r with
  | holds q fresh =>
    obtain ⟨alive, untagged, isFresh⟩ := rights
    refine ⟨alive, untagged, fun isTrue => ?_⟩
    subst isTrue
    have other : q ≠ p := fun same => differs (by rw [same])
    obtain ⟨outside, empty, opened, idle⟩ := isFresh rfl
    exact ⟨outside, (lists q other).trans empty, (tags q other).trans opened,
      (flags q other).trans idle⟩
  | _ => exact rights

theorem settle {t p tag entries} (holds : c.role (.fg t) = .holds p false)
    (open_ : tag ≠ .flushing) :
    Ownership { c with tag := update c.tag p tag, entries := update c.entries p entries } := by
  have mine : (c.role (.fg t)).held = some p := by simp [holds, Role.held]
  have untagged := (inv.alive_of_held mine).2
  refine { inv with
    flushing := fun q member => ?_
    tagged := fun q flushing => ?_
    rights := fun o => rights_touch (p := p) (by simp +contextual) (by simp +contextual)
      (fun _ _ => rfl) ?_ (inv.rights o) }
  · have differs : q ≠ p := fun same => untagged (same ▸ member)
    simpa [differs] using inv.flushing q member
  · by_cases same : q = p
    · exact absurd (by simpa [same] using flushing) open_
    · exact inv.tagged q (by simpa [same] using flushing)
  · intro role
    obtain rfl := inv.same_holder (by rw [role]; rfl) mine
    simp [holds] at role

theorem enlist {t p fresh e tag entries} (holds : c.role (.fg t) = .holds p fresh)
    (open_ : tag ≠ .flushing) (absent : c.inQueue p = false) :
    Ownership
      { c with
        role := update c.role (.fg t) (.pushing p e)
        tag := update c.tag p tag
        entries := update c.entries p entries
        inQueue := update c.inQueue p true } := by
  have mine : (c.role (.fg t)).held = some p := by simp [holds, Role.held]
  obtain ⟨alive, untagged⟩ := inv.alive_of_held mine
  have notWaiting : p ∉ c.waiting := fun member => by
    simp [(inv.queued p).mpr (.inl member)] at absent
  have outside : p ∉ c.pipe := fun member =>
    (List.mem_append.mp member).elim untagged notWaiting
  refine { inv with
    flushing := fun q member => ?_
    tagged := fun q flushing => ?_
    queued := fun q => ?_
    locked := inv.locked_quiet (by simp [holds, Role.held])
    rights := inv.rights_update ⟨alive, outside⟩ fun other differs rights =>
      rights_touch (p := p) (by simp +contextual) (by simp +contextual) (by simp +contextual)
        ?_ rights
    sharded := inv.sharded_quiet (by simp [holds, gate]) }
  · have differs : q ≠ p := fun same => untagged (same ▸ member)
    simpa [differs] using inv.flushing q member
  · by_cases same : q = p
    · exact absurd (by simpa [same] using flushing) open_
    · exact inv.tagged q (by simpa [same] using flushing)
  · dsimp only
    by_cases same : q = p
    · subst same
      simp only [Function.update_self, true_iff]
      exact .inr ⟨.fg t, e, by simp⟩
    · rw [pushing_update (by simp [holds]) (by simp [Ne.symm same]), Function.update_of_ne same]
      exact inv.queued q
  · intro role
    exact differs (inv.same_holder (by rw [role]; rfl) mine)

theorem advance {o p e e'} (pushes : c.role o = .pushing p e) :
    Ownership { c with role := update c.role o (.pushing p e') } := by
  have rights := inv.rights o
  rw [pushes] at rights
  refine { inv with
    queued := fun q => ?_
    locked := inv.locked_quiet (by simp [pushes, Role.held])
    rights := inv.rights_update rights fun _ _ rights => rights
    sharded := inv.sharded_quiet (by simp [pushes, gate]) }
  by_cases same : q = p
  · subst same
    have before : Pushing c.role q := ⟨o, e, pushes⟩
    have after : Pushing (update c.role o (.pushing q e')) q := ⟨o, e', by simp⟩
    simpa [before, after] using inv.queued q
  · rw [pushing_update (by simp [pushes, Ne.symm same]) (by simp [Ne.symm same])]
    exact inv.queued q


omit inv in
theorem rights_lists {o r tagged unlinked early late}
    (fromTagged : ∀ q, r.held = some q → q ∈ tagged → q ∈ c.tagged)
    (fromPipe : ∀ q, r.held = some q →
      q ∈ tagged ++ (Option.toList unlinked ++ early ++ late) → q ∈ c.pipe)
    (rights : c.Rights o r) :
    Rights { c with tagged := tagged, unlinked := unlinked, early := early, late := late } o r := by
  cases r with
  | holds q fresh =>
    obtain ⟨alive, untagged, isFresh⟩ := rights
    refine ⟨alive, fun member => untagged (fromTagged q rfl member), fun fresh => ?_⟩
    obtain ⟨outside, blank⟩ := isFresh fresh
    exact ⟨fun member => outside (fromPipe q rfl member), blank⟩
  | pushing q e => exact ⟨rights.1, fun member => rights.2 (fromPipe q rfl member)⟩
  | _ => exact rights

theorem queued_push {o p e} {waiting : List PageId} (pushes : c.role o = .pushing p e)
    (grown : ∀ q, q ∈ waiting ↔ q ∈ c.waiting ∨ q = p) (q : PageId) :
    c.inQueue q = true ↔ q ∈ waiting ∨ Pushing (update c.role o (.holds p false)) q := by
  rw [inv.queued q, grown]
  by_cases same : q = p
  · subst same
    have before : Pushing c.role q := ⟨o, e, pushes⟩
    simp [before]
  · rw [pushing_update (by simp [pushes, Ne.symm same]) (by simp)]
    simp [same]

theorem push {o p e early late} (pushes : c.role o = .pushing p e)
    (grown : (c.unlinked.toList ++ early ++ late).Perm (p :: c.waiting)) :
    Ownership
      { c with role := update c.role o (.holds p false), early := early, late := late } := by
  have mine : (c.role o).held = some p := by simp [pushes, Role.held]
  have rights := inv.rights o
  rw [pushes] at rights
  obtain ⟨alive, untagged⟩ := inv.alive_of_held mine
  have pipe : (c.tagged ++ (c.unlinked.toList ++ early ++ late)).Perm (p :: c.pipe) :=
    (grown.append_left _).trans List.perm_middle
  refine { inv with
    nodup := pipe.nodup_iff.mpr (List.nodup_cons.mpr ⟨rights.2, inv.nodup⟩)
    live := fun q member => ?_
    queued := inv.queued_push pushes fun q =>
      (grown.mem_iff.trans List.mem_cons).trans or_comm
    locked := inv.locked_quiet (by simp [pushes, Role.held])
    rights := inv.rights_update ⟨alive, untagged, by simp⟩ fun other differs rights =>
      rights_lists (fun _ _ member => member) (fun q held member => ?_) rights
    sharded := inv.sharded_quiet (by simp [pushes, gate]) }
  · rcases List.mem_cons.mp (pipe.mem_iff.mp member) with rfl | member
    · exact alive
    · exact inv.live q member
  · rcases List.mem_cons.mp (pipe.mem_iff.mp member) with rfl | member
    · exact absurd (inv.same_holder held mine) differs
    · exact member

theorem release {o p r} (holds : c.role o = .holds p false) (next : r = .none ∨ r = .points p) :
    Ownership { c with role := update c.role o r, lock := update c.lock p none } := by
  have mine : (c.role o).held = some p := by simp [holds, Role.held]
  have alive := (inv.alive_of_held mine).1
  have empty : r.held = none := by rcases next with rfl | rfl <;> rfl
  refine { inv with
    queued := fun q => ?_
    locked := ?_
    rights := inv.rights_update ?_ fun _ _ rights => rights
    sharded := inv.sharded_quiet (by rcases next with rfl | rfl <;> simp [holds, gate]) }
  · rw [pushing_update (by simp [holds]) (by rcases next with rfl | rfl <;> simp)]
    exact inv.queued q
  · rw [map_update Role.held, empty]
    exact inv.locked.release mine
  · rcases next with rfl | rfl
    · trivial
    · exact alive.1

theorem sweep {p bucket e tag} (idle : c.role .closer = .none) (free : c.lock p = none)
    (member : p ∈ c.buckets bucket) (absent : p ∉ c.pipe) (open_ : tag ≠ .flushing) :
    Ownership
      { c with
        role := update c.role .closer (.pushing p e)
        lock := update c.lock p (some .closer)
        tag := update c.tag p tag
        inQueue := update c.inQueue p true } := by
  have alive := (inv.indexed bucket p member).1
  refine { inv with
    flushing := fun q member => ?_
    tagged := fun q flushing => ?_
    queued := fun q => ?_
    locked := ?_
    rights := inv.rights_update ⟨alive, absent⟩ fun other differs rights =>
      rights_touch (p := p) (by simp +contextual) (fun _ _ => rfl) (by simp +contextual)
        (inv.untouched_fresh free) rights
    sharded := ?_ }
  · have differs : q ≠ p := fun same => absent (mem_pipe_of_tagged (same ▸ member))
    simpa [differs] using inv.flushing q member
  · by_cases same : q = p
    · exact absurd (by simpa [same] using flushing) open_
    · exact inv.tagged q (by simpa [same] using flushing)
  · dsimp only
    by_cases same : q = p
    · subst same
      simp only [Function.update_self, true_iff]
      exact .inr ⟨.closer, e, by simp⟩
    · rw [pushing_update (by simp [idle]) (by simp [Ne.symm same]), Function.update_of_ne same]
      exact inv.queued q
  · rw [map_update Role.held]
    exact inv.locked.acquire free (by simp [idle, Role.held])
  · rw [gate_update_closer]
    exact inv.sharded

theorem fill {p rest entries} (front : c.late = p :: rest) (free : c.lock p = none) :
    Ownership { c with tag := update c.tag p .full, entries := update c.entries p entries } := by
  have untagged : p ∉ c.tagged := fun member =>
    (List.disjoint_of_nodup_append inv.nodup) member (by simp [waiting, front])
  refine { inv with
    flushing := fun q member => ?_
    tagged := fun q flushing => ?_
    rights := fun o => rights_touch (p := p) (by simp +contextual) (by simp +contextual)
      (fun _ _ => rfl) (inv.untouched_fresh free) (inv.rights o) }
  · have differs : q ≠ p := fun same => untagged (same ▸ member)
    simpa [differs] using inv.flushing q member
  · by_cases same : q = p
    · simp [same] at flushing
    · exact inv.tagged q (by simpa [same] using flushing)


/-- A thread that waits for a page lock keeps its page linked: it holds the shard lock that
an unlink needs. -/
theorem rights_unlink {o r base address} (role : c.role o = r)
    (free : c.shard (Engine.shardOf base) = none) (rights : c.Rights o r) :
    Rights { c with buckets := c.unlinkAddr base address } o r := by
  cases r with
  | wants base' p =>
    obtain ⟨member, found, t, rfl⟩ := rights
    refine ⟨?_, found, t, rfl⟩
    have holds : c.shard (Engine.shardOf base') = some t :=
      (inv.sharded _ _).mpr (by simp [role, gate])
    have differs : piHash base' ≠ piHash base := fun same => by
      rw [Engine.shardOf, same] at holds
      exact absurd (holds.symm.trans free) (by simp)
    simpa [unlinkAddr, differs] using member
  | _ => exact rights

theorem abandon {t p base} (points : c.role (.fg t) = .points p)
    (free : c.shard (Engine.shardOf base) = none) :
    Ownership
      { c with
        role := update c.role (.fg t) .none
        buckets := c.unlinkAddr base (c.addr p) } := by
  refine { inv with
    unlinked := fun q member b linked => inv.unlinked q member b (mem_of_mem_unlinkAddr linked)
    queued := fun q => ?_
    locked := inv.locked_quiet (by simp [points, Role.held])
    rights := inv.rights_update trivial fun other _ rights => inv.rights_unlink rfl free rights
    sharded := inv.sharded_quiet (by simp [points, gate])
    indexed := fun b q member => inv.indexed b q (mem_of_mem_unlinkAddr member)
    chain := fun b => (inv.chain b).sublist (c.unlinkAddr_sublist _ _ b)
    single := fun b q first r second =>
      inv.single b q (mem_of_mem_unlinkAddr first) r (mem_of_mem_unlinkAddr second) }
  rw [pushing_update (by simp [points]) (by simp)]
  exact inv.queued q

theorem unlink {p rest} (none_ : c.unlinked = none) (front : c.early = p :: rest)
    (free : c.shard (Engine.shardOf (c.base p)) = none) :
    Ownership
      { c with
        buckets := c.unlinkAddr (c.base p) (c.addr p)
        detached := update c.detached p true
        unlinked := some p
        early := rest } := by
  have same : (some p).toList ++ rest ++ c.late = c.waiting := by simp [waiting, none_, front]
  have inPipe : p ∈ c.pipe := mem_pipe_of_waiting (by simp [waiting, front])
  -- Live pages have different addresses, so the unlink by address removes `p` and nothing else.
  have gone : ∀ b, p ∉ c.unlinkAddr (c.base p) (c.addr p) b := by
    intro b member
    have hashed := (inv.indexed b p (mem_of_mem_unlinkAddr member)).2
    subst hashed
    rw [unlinkAddr, Function.update_self] at member
    refine not_mem_eraseP (inv.chain _) (by simp) (fun q member' hit => ?_) member
    exact inv.address q p (inv.indexed _ q member').1 (inv.live p inPipe) (by simpa using hit)
  refine { inv with
    nodup := by simpa only [pipe, waiting, same] using inv.nodup
    live := fun q member => inv.live q (by simpa only [pipe, waiting, same] using member)
    unlinked := fun q member b linked => ?_
    queued := by simpa only [waiting, same] using inv.queued
    rights := fun o => ?_
    indexed := fun b q member => inv.indexed b q (mem_of_mem_unlinkAddr member)
    chain := fun b => (inv.chain b).sublist (c.unlinkAddr_sublist _ _ b)
    single := fun b q first r second =>
      inv.single b q (mem_of_mem_unlinkAddr first) r (mem_of_mem_unlinkAddr second)
    detached := fun q detached => ?_ }
  -- `unlinked`
  · rcases List.mem_append.mp member with tagged | now
    · exact inv.unlinked q (List.mem_append_left _ tagged) b (mem_of_mem_unlinkAddr linked)
    · obtain rfl : q = p := by simpa using now
      exact gone b linked
  -- `rights`: nobody waits for a page of this shard while its mutex is free.
  · exact rights_lists (c := { c with buckets := c.unlinkAddr (c.base p) (c.addr p) })
      (fun _ _ member => member) (fun q _ member => by rwa [same] at member)
      (inv.rights_unlink rfl free (inv.rights o))
  -- `detached`
  · by_cases same : q = p
    · exact .inl (by simp [same])
    · rcases inv.detached q (by simpa [same] using detached) with tagged | freed
      · exact .inl (List.mem_append_left _ (by simpa [none_] using tagged))
      · exact .inr freed

theorem forward {p rest} (front : c.late = p :: rest) :
    Ownership { c with early := c.early ++ [p], late := rest } := by
  have same : c.unlinked.toList ++ (c.early ++ [p]) ++ rest = c.waiting := by simp [waiting, front]
  exact { inv with
    nodup := by simpa only [pipe, waiting, same] using inv.nodup
    live := fun q member => inv.live q (by simpa only [pipe, waiting, same] using member)
    queued := by simpa only [waiting, same] using inv.queued
    rights := fun o => rights_lists (fun _ _ member => member)
      (fun q _ member => by rwa [same] at member) (inv.rights o) }

theorem drop {p rest} (front : c.late = p :: rest) (free : c.lock p = none) :
    Ownership { c with inQueue := update c.inQueue p false, late := rest } := by
  -- A dropped page was the first of the late ones, so what is left is a part of the pipe.
  have parts : c.waiting.Perm (p :: (c.unlinked.toList ++ c.early ++ rest)) := by
    rw [waiting, front]
    exact List.perm_middle
  have pipe : c.pipe.Perm (p :: (c.tagged ++ (c.unlinked.toList ++ c.early ++ rest))) :=
    (parts.append_left _).trans List.perm_middle
  obtain ⟨notMem, nodup⟩ := List.nodup_cons.mp (pipe.nodup_iff.mp inv.nodup)
  have fromPipe : ∀ q ∈ c.tagged ++ (c.unlinked.toList ++ c.early ++ rest), q ∈ c.pipe :=
    fun q member => pipe.mem_iff.mpr (List.mem_cons_of_mem _ member)
  refine { inv with
    nodup := nodup
    live := fun q member => inv.live q (fromPipe q member)
    queued := fun q => ?_
    rights := fun o => ?_ }
  -- `queued`: `p` has left both lists, and nobody is about to push it: its lock is free.
  · have current := (inv.queued q).trans (or_congr_left (parts.mem_iff.trans List.mem_cons))
    dsimp only
    by_cases same : q = p
    · subst same
      rw [Function.update_self]
      refine ⟨fun impossible => by simp at impossible, ?_⟩
      rintro (member | pushes)
      · exact absurd (List.mem_append_right _ member) notMem
      · exact absurd pushes (inv.not_pushing_of_free free)
    · rw [Function.update_of_ne same, current]
      simp [same, waiting]
  · exact rights_lists (c := { c with inQueue := update c.inQueue p false })
      (fun _ _ member => member) (fun q _ member => fromPipe q member)
      (rights_touch (p := p) (fun _ _ => rfl) (fun _ _ => rfl) (by simp +contextual)
        (inv.untouched_fresh free) (inv.rights o))

theorem tag {p} (front : c.unlinked = some p) (free : c.lock p = none) :
    Ownership
      { c with
        tag := update c.tag p .flushing
        inQueue := update c.inQueue p false
        tagged := c.tagged ++ [p]
        unlinked := none } := by
  have waits : c.waiting = p :: (c.early ++ c.late) := by simp [waiting, front]
  have same : c.tagged ++ [p] ++ (Option.toList none ++ c.early ++ c.late) = c.pipe := by
    simp [Custody.pipe, waits]
  obtain ⟨notMem, -⟩ := List.nodup_cons.mp
    (waits ▸ (List.nodup_append.mp inv.nodup).2.1)
  have unheld : ∀ o, (c.role o).held ≠ some p := inv.locked.not_held_of_free free
  refine { inv with
    nodup := (congrArg List.Nodup same).mpr inv.nodup
    live := fun q member => inv.live q (same ▸ member)
    flushing := fun q member => ?_
    tagged := fun q flushing => ?_
    unlinked := fun q member b => inv.unlinked q ?_ b
    queued := fun q => ?_
    rights := fun o => ?_
    detached := fun q detached => ?_ }
  -- `flushing`
  · by_cases isP : q = p
    · simp [isP]
    · simpa [isP] using inv.flushing q (by simpa [isP] using member)
  -- `tagged`
  · by_cases isP : q = p
    · simp [isP]
    · rcases inv.tagged q (by simpa [isP] using flushing) with member | freed
      · exact .inl (List.mem_append_left _ member)
      · exact .inr freed
  · simpa [front] using member
  -- `queued`: `p` has left the waiting ones, and nobody is about to push it.
  · have current := inv.queued q
    rw [waits] at current
    dsimp only
    by_cases isP : q = p
    · subst isP
      rw [Function.update_self]
      refine ⟨fun impossible => by simp at impossible, ?_⟩
      rintro (member | pushes)
      · exact absurd member notMem
      · exact absurd pushes (inv.not_pushing_of_free free)
    · rw [Function.update_of_ne isP, current]
      simp [isP, waiting]
  -- `rights`: nobody holds `p`, so nobody's right to touch a page is lost.
  · refine rights_lists
      (c := { c with tag := update c.tag p .flushing, inQueue := update c.inQueue p false })
      (fun q held member => ?_) (fun q _ member => same ▸ member)
      (rights_touch (p := p) (by simp +contextual) (fun _ _ => rfl) (by simp +contextual)
        (inv.untouched_fresh free) (inv.rights o))
    rcases List.mem_append.mp member with member | now
    · exact member
    · obtain rfl : q = p := by simpa using now
      exact absurd held (unheld o)
  -- `detached`
  · rcases inv.detached q detached with member | freed
    · exact .inl (by simpa [front] using member)
    · exact .inr freed

theorem free {p rest} (front : c.tagged = p :: rest) :
    Ownership { c with freed := update c.freed p true, tagged := rest } := by
  have pipe : c.pipe = p :: (rest ++ c.waiting) := by simp [Custody.pipe, front]
  obtain ⟨notMem, nodup⟩ := List.nodup_cons.mp (pipe ▸ inv.nodup)
  have isTagged : p ∈ c.tagged := by simp [front]
  have survives : ∀ {q}, q ≠ p → c.Alive q →
      Alive { c with freed := update c.freed p true, tagged := rest } q := fun differs alive =>
    ⟨alive.1, by simpa [differs] using alive.2⟩
  refine { inv with
    nodup := nodup
    live := fun q member => ?_
    flushing := fun q member => inv.flushing q (by simp [front, member])
    tagged := fun q flushing => ?_
    unlinked := fun q member b => inv.unlinked q ?_ b
    rights := fun o => ?_
    indexed := fun b q member => ?_
    address := fun q r first second => ?_
    detached := fun q detached => ?_
    unborn := fun q freed => ?_ }
  -- `live`
  · have inPipe : q ∈ c.pipe := pipe ▸ List.mem_cons_of_mem _ member
    exact survives (fun same => notMem (same ▸ member)) (inv.live q inPipe)
  -- `tagged`
  · by_cases same : q = p
    · exact .inr (by simp [same])
    · rcases inv.tagged q flushing with member | freed
      · exact .inl (by simpa [front, same] using member)
      · exact .inr (by simpa [same] using freed)
  · simp only [List.mem_append] at member ⊢
    exact member.imp_left fun member => by simp [front, member]
  -- `rights`: a thread holds no page that is tagged, so not the one that is freed.
  · have rights := inv.rights o
    cases role : c.role o with
    | none => trivial
    | wants => rw [role] at rights; exact rights
    | holds q fresh =>
      rw [role] at rights
      obtain ⟨alive, untagged, isFresh⟩ := rights
      refine ⟨survives (fun same => untagged (same ▸ isTagged)) alive,
        fun member => untagged (by simp [front, member]), fun fresh => ?_⟩
      obtain ⟨outside, blank⟩ := isFresh fresh
      exact ⟨fun member => outside (pipe ▸ List.mem_cons_of_mem _ member), blank⟩
    | pushing q e =>
      rw [role] at rights
      exact ⟨survives (fun same => rights.2 (mem_pipe_of_tagged (same ▸ isTagged))) rights.1,
        fun member => rights.2 (pipe ▸ List.mem_cons_of_mem _ member)⟩
    | points => rw [role] at rights; exact rights
  -- `indexed`: a tagged page is out of the index already.
  · have differs : q ≠ p := fun same =>
      inv.unlinked p (List.mem_append_left _ isTagged) b (same ▸ member)
    exact ⟨survives differs (inv.indexed b q member).1, (inv.indexed b q member).2⟩
  -- `address`
  · have kept : ∀ {r}, Alive { c with freed := update c.freed p true, tagged := rest } r →
        c.Alive r := by
      intro r alive
      refine ⟨alive.1, ?_⟩
      have freed := alive.2
      by_cases same : r = p
      · simp [same] at freed
      · simpa [same] using freed
    exact inv.address q r (kept first) (kept second)
  -- `detached`
  · by_cases same : q = p
    · exact .inr (by simp [same])
    · rcases inv.detached q detached with member | freed
      · refine .inl ?_
        simp only [List.mem_append, front, List.mem_cons, same, false_or] at member ⊢
        exact member
      · exact .inr (by simpa [same] using freed)
  -- `unborn`
  · by_cases same : q = p
    · exact same ▸ (inv.live p (mem_pipe_of_tagged isTagged)).1
    · exact inv.unborn q (by simpa [same] using freed)

theorem destroy {resident : List PageId} (idle : ∀ o, c.role o = .none) (drained : c.pipe = [])
    (all : ∀ p, p ∈ resident ↔ ∃ b, p ∈ c.buckets b) :
    Ownership
      { c with
        freed := fun p => c.freed p || resident.contains p
        buckets := fun _ => [] } := by
  have noPipe : ∀ p, p ∉ c.pipe := by simp [drained]
  refine { inv with
    live := fun p member => absurd member (noPipe p)
    tagged := fun p flushing => ?_
    unlinked := fun p member b => by simp
    rights := fun o => by simp only [idle]; trivial
    indexed := fun b p member => by simp at member
    chain := fun b => List.nodup_nil
    single := fun b p first => by simp at first
    address := fun p q first second => ?_
    detached := fun p detached => ?_
    unborn := fun p freed => ?_ }
  · exact (inv.tagged p flushing).imp_right fun freed => by simp [freed]
  -- `address`
  · have kept : ∀ {r}, (r < c.created ∧ (c.freed r || resident.contains r) = false) → c.Alive r :=
      fun alive => ⟨alive.1, (Bool.or_eq_false_iff.mp alive.2).1⟩
    exact inv.address p q (kept first) (kept second)
  · exact (inv.detached p detached).imp_right fun freed => by simp [freed]
  -- `unborn`: what is freed here was in the index, so it was created.
  · rcases Bool.or_eq_true_iff.mp freed with freed | member
    · exact inv.unborn p freed
    · obtain ⟨b, member⟩ := (all p).mp (by simpa using member)
      exact (inv.indexed b p member).1.1

theorem step {c' : Custody n} (step : Step c c') : c'.Ownership := by
  cases step with
  | want idle free member found => exact inv.want idle free member found
  | acquire waits free => exact inv.acquire waits free
  | create idle free absent unused => exact inv.create idle absent unused
  | settle holds open_ => exact inv.settle holds open_
  | enlist holds open_ absent => exact inv.enlist holds open_ absent
  | sweep idle free member absent open_ => exact inv.sweep idle free member absent open_
  | advance pushes kind => exact inv.advance pushes
  | pushPartial pushes kind =>
    refine inv.push pushes ?_
    rw [← List.append_assoc]
    exact List.perm_append_singleton _ _
  | pushFull pushes kind =>
    refine inv.push pushes ?_
    rw [waiting, ← List.append_assoc, List.append_assoc _ [_] _]
    exact List.perm_middle
  | release holds next => exact inv.release holds next
  | abandon points free => exact inv.abandon points free
  | fill front free => exact inv.fill front free
  | drop front free => exact { inv.drop front free with }
  | forward front => exact inv.forward front
  | unlink none_ front free => exact inv.unlink none_ front free
  | tag front free => exact inv.tag front free
  | latch => exact { inv with }
  | free front => exact inv.free front
  | destroy idle drained all => exact inv.destroy idle drained all

end Ownership

end Custody

end NoxDB

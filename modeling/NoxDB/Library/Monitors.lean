import NoxDB.Library.Runs
import Mathlib.Data.List.Nodup

/-! # Actions under mutexes

A step function whose steps are made by threads, each of which runs under mutexes that its
thread takes beforehand, one after the other, and gives up with the step.  A thread whose
step has to wait for a condition gives its mutexes up and sleeps until some step broadcasts
the condition.  The state may hold mutexes across steps on its own account (`busy`).

`Monitor.Lawful` lists what a deadlock argument needs of such a system: the mutexes of a
step are taken in the order of a rank, no step can find its second mutex busy, a thread
that has its mutexes can make its step or sleep, and no wakeup is lost.  Then whenever the
step function on its own has a step, so has the system with its mutexes.
-/

namespace Library.Monitors

variable {State Label Thread Lock Cond : Type}

structure Monitor (State Label Thread Lock Cond : Type) where
  step : State → Label → Option State
  thread : Label → Thread
  /-- The mutexes of the next step of a thread, in the order in which it takes them. -/
  wanted : State → Thread → List Lock
  /-- The mutex is held across steps. -/
  busy : State → Lock → Bool
  /-- The condition on which the thread sleeps when it is not ready. -/
  waitsOn : State → Thread → Option Cond
  ready : State → Thread → Bool
  /-- The condition that a step broadcasts. -/
  signals : State → Label → Option Cond

/-- A state together with who is inside which mutex and who is asleep. -/
structure Threaded (State Thread Lock : Type) where
  state : State
  holder : Lock → Option Thread
  asleep : Thread → Bool

inductive Action (Label Thread : Type) where
  /-- The thread takes the next mutex of its step. -/
  | acquire (t : Thread)
  /-- The thread makes its step and gives up its mutexes. -/
  | act (label : Label)
  /-- The thread is not ready: it gives up its mutexes and sleeps. -/
  | sleep (t : Thread)
  /-- The thread wakes up although nobody woke it. -/
  | spurious (t : Thread)

namespace Monitor

variable [DecidableEq Thread] [DecidableEq Lock] [DecidableEq Cond]
  (m : Monitor State Label Thread Lock Cond)

/-- The next mutex that the thread has to take. -/
def missing (f : Threaded State Thread Lock) (t : Thread) : Option Lock :=
  (m.wanted f.state t).find? fun lock => f.holder lock != some t

/-- The mutexes after `t` has given up its own. -/
def release (holder : Lock → Option Thread) (t : Thread) : Lock → Option Thread :=
  fun lock => if holder lock = some t then none else holder lock

/-- The sleepers after the condition was broadcast. -/
def wake (s : State) (asleep : Thread → Bool) (signal : Option Cond) : Thread → Bool :=
  fun t => asleep t && (signal.isNone || m.waitsOn s t != signal)

def next (f : Threaded State Thread Lock) :
    Action Label Thread → Option (Threaded State Thread Lock)
  | .acquire t =>
    match m.missing f t with
    | some lock =>
      if f.asleep t = false ∧ f.holder lock = none ∧ m.busy f.state lock = false then
        some { f with holder := Function.update f.holder lock (some t) }
      else
        none
    | none => none
  | .act label =>
    if f.asleep (m.thread label) = false ∧ m.missing f (m.thread label) = none then
      (m.step f.state label).map fun s =>
        { state := s
          holder := release f.holder (m.thread label)
          asleep := m.wake f.state f.asleep (m.signals f.state label) }
    else
      none
  | .sleep t =>
    if f.asleep t = false ∧ m.missing f t = none ∧ (m.waitsOn f.state t).isSome = true ∧
        m.ready f.state t = false then
      some { f with holder := release f.holder t, asleep := Function.update f.asleep t true }
    else
      none
  | .spurious t =>
    if f.asleep t = true then some { f with asleep := Function.update f.asleep t false } else none

/-- What the deadlock argument needs, in the states where `holds`. -/
structure Lawful (holds : State → Prop) (rank : Lock → Nat) (top : Nat) : Prop where
  bounded : ∀ lock, rank lock ≤ top
  ordered : ∀ s t, (m.wanted s t).Pairwise fun lock later => rank lock < rank later
  /-- Only the first mutex of a step can be found busy. -/
  leaf : ∀ {s t lock}, lock ∈ (m.wanted s t).tail → m.busy s lock = false
  /-- A step needs its mutexes free. -/
  needs : ∀ {s s' label lock}, holds s → m.step s label = some s' →
    lock ∈ m.wanted s (m.thread label) → m.busy s lock = false
  /-- A step keeps a mutex beyond its end only if it took it, or if nobody knows it yet. -/
  takes : ∀ {s s' label lock}, holds s → m.step s label = some s' → m.busy s' lock = true →
    m.busy s lock = true ∨ lock ∈ m.wanted s (m.thread label) ∨ ∀ t, lock ∉ m.wanted s t
  /-- The mutexes of a step do not change once its thread is inside the first one. -/
  stable : ∀ {s s' label t}, holds s → m.step s label = some s' → t ≠ m.thread label →
    (∀ lock, (m.wanted s t).head? = some lock →
      lock ∉ m.wanted s (m.thread label) ∧ m.busy s lock = false) →
    m.wanted s' t = m.wanted s t
  /-- A thread that is not ready cannot make a step. -/
  blocked : ∀ {s s' label}, holds s → m.step s label = some s' →
    (m.waitsOn s (m.thread label)).isSome = true → m.ready s (m.thread label) = true
  /-- Whatever makes a waiting thread ready broadcasts its condition. -/
  wakes : ∀ {s s' label t c}, holds s → m.step s label = some s' → t ≠ m.thread label →
    m.waitsOn s t = some c → m.ready s t = false →
    m.waitsOn s' t = some c ∧ (m.ready s' t = true → m.signals s label = some c)

structure Invariant (rank : Lock → Nat) (f : Threaded State Thread Lock) : Prop where
  /-- A thread is inside mutexes of its next step only. -/
  mine : ∀ {lock t}, f.holder lock = some t → lock ∈ m.wanted f.state t
  free : ∀ {lock t}, f.holder lock = some t → m.busy f.state lock = false
  /-- It took the earlier ones first. -/
  earlier : ∀ {lock t}, f.holder lock = some t → ∀ lock' ∈ m.wanted f.state t,
    rank lock' < rank lock → f.holder lock' = some t
  sleepers : ∀ {t}, f.asleep t = true →
    (m.waitsOn f.state t).isSome = true ∧ m.ready f.state t = false ∧ ∀ lock, f.holder lock ≠ some t

section

variable {m} {holds : State → Prop} {rank : Lock → Nat} {top : Nat}
  {f f' : Threaded State Thread Lock} {t u : Thread} {lock : Lock}

omit [DecidableEq Lock] [DecidableEq Cond] in
theorem held_of_missing_none (complete : m.missing f t = none) :
    ∀ lock ∈ m.wanted f.state t, f.holder lock = some t := by
  simpa [missing, List.find?_eq_none] using complete

omit [DecidableEq Lock] [DecidableEq Cond] in
theorem missing_some (lawful : m.Lawful holds rank top) (first : m.missing f t = some lock) :
    lock ∈ m.wanted f.state t ∧ f.holder lock ≠ some t ∧
      ∀ lock' ∈ m.wanted f.state t, rank lock' < rank lock → f.holder lock' = some t := by
  obtain ⟨differs, before, after, split, held⟩ := List.find?_eq_some_iff_append.mp first
  refine ⟨by simp [split], by simpa using differs, fun lock' member lower => ?_⟩
  have ordered := lawful.ordered f.state t
  rw [split, List.pairwise_append, List.pairwise_cons] at ordered
  rw [split, List.mem_append, List.mem_cons] at member
  rcases member with sooner | rfl | later
  · simpa using held lock' sooner
  · exact absurd lower (Nat.lt_irrefl _)
  · exact absurd lower (Nat.not_lt.mpr (Nat.le_of_lt (ordered.2.1.1 lock' later)))

omit [DecidableEq Lock] in
theorem release_eq_some {holder : Lock → Option Thread} :
    release holder t lock = some u ↔ holder lock = some u ∧ u ≠ t := by
  rw [release]
  split
  · next mine =>
    simp only [reduceCtorEq, false_iff, not_and, not_not]
    exact fun same => Option.some.inj (same.symm.trans mine)
  · next other =>
    constructor
    · exact fun same => ⟨same, fun equal => other (equal ▸ same)⟩
    · exact And.left

omit [DecidableEq Thread] [DecidableEq Lock] [DecidableEq Cond] in
/-- A thread that is inside some mutex is inside the first one of its step. -/
theorem Invariant.first (inv : m.Invariant rank f) (lawful : m.Lawful holds rank top)
    (held : f.holder lock = some t) {first : Lock}
    (head : (m.wanted f.state t).head? = some first) : f.holder first = some t := by
  have ordered := lawful.ordered f.state t
  have member := inv.mine held
  cases list : m.wanted f.state t with
  | nil => simp [list] at head
  | cons first' rest =>
    rw [list] at head ordered member
    obtain rfl : first' = first := by simpa using head
    rcases List.mem_cons.mp member with rfl | later
    · exact held
    · exact inv.earlier held first' (by simp [list])
        ((List.pairwise_cons.mp ordered).1 lock later)

omit [DecidableEq Cond] in
theorem Invariant.acquire (inv : m.Invariant rank f) (lawful : m.Lawful holds rank top)
    (first : m.missing f t = some lock) (awake : f.asleep t = false)
    (free : f.holder lock = none) (idle : m.busy f.state lock = false) :
    m.Invariant rank { f with holder := Function.update f.holder lock (some t) } := by
  obtain ⟨wanted, -, before⟩ := missing_some lawful first
  refine ⟨fun {lock' u} held => ?_, fun {lock' u} held => ?_,
    fun {lock' u} held lock'' member lower => ?_, fun {u} sleeps => ?_⟩
  · by_cases same : lock' = lock
    · subst same
      obtain rfl : t = u := by simpa using held
      exact wanted
    · exact inv.mine (by simpa [same] using held)
  · by_cases same : lock' = lock
    · exact same ▸ idle
    · exact inv.free (by simpa [same] using held)
  · change Function.update f.holder lock (some t) lock'' = some u
    by_cases same : lock' = lock
    · subst same
      obtain rfl : t = u := by simpa using held
      have differs : lock'' ≠ lock' := by
        rintro rfl
        exact Nat.lt_irrefl _ lower
      rw [Function.update_of_ne differs]
      exact before lock'' member lower
    · have held : f.holder lock' = some u := by simpa [same] using held
      have earlier := inv.earlier held lock'' member lower
      have differs : lock'' ≠ lock := by
        rintro rfl
        simp [free] at earlier
      rw [Function.update_of_ne differs]
      exact earlier
  · obtain ⟨waits, unready, outside⟩ := inv.sleepers sleeps
    refine ⟨waits, unready, fun lock' held => ?_⟩
    by_cases same : lock' = lock
    · subst same
      obtain rfl : t = u := by simpa using held
      simp [awake] at sleeps
    · exact outside lock' (by simpa [same] using held)

omit [DecidableEq Lock] in
theorem Invariant.act (inv : m.Invariant rank f) (lawful : m.Lawful holds rank top)
    (sound : holds f.state) {label : Label} {s : State}
    (awake : f.asleep (m.thread label) = false) (complete : m.missing f (m.thread label) = none)
    (stepped : m.step f.state label = some s) :
    m.Invariant rank
      { state := s
        holder := release f.holder (m.thread label)
        asleep := m.wake f.state f.asleep (m.signals f.state label) } := by
  have own := held_of_missing_none complete
  -- What another thread is inside of is no mutex of this step.
  have foreign : ∀ {lock u}, f.holder lock = some u → u ≠ m.thread label →
      lock ∉ m.wanted f.state (m.thread label) := fun held other member =>
    other (Option.some.inj (held.symm.trans (own _ member)))
  have same : ∀ {lock u}, f.holder lock = some u → u ≠ m.thread label →
      m.wanted s u = m.wanted f.state u := fun held other =>
    lawful.stable sound stepped other fun first head =>
      have inside := inv.first lawful held head
      ⟨foreign inside other, inv.free inside⟩
  refine ⟨fun {lock u} held => ?_, fun {lock u} held => ?_,
    fun {lock u} held lock' member lower => ?_, fun {u} sleeps => ?_⟩
  · obtain ⟨held, other⟩ := release_eq_some.mp held
    exact (same held other).symm ▸ inv.mine held
  · obtain ⟨held, other⟩ := release_eq_some.mp held
    by_contra busy
    rcases lawful.takes sound stepped (Bool.not_eq_false _ ▸ busy) with before | taken | unknown
    · simp [inv.free held] at before
    · exact foreign held other taken
    · exact unknown u (inv.mine held)
  · obtain ⟨held, other⟩ := release_eq_some.mp held
    exact release_eq_some.mpr ⟨inv.earlier held lock' (same held other ▸ member) lower, other⟩
  · simp only [wake, Bool.and_eq_true, Bool.or_eq_true, bne_iff_ne] at sleeps
    obtain ⟨waits, unready, outside⟩ := inv.sleepers sleeps.1
    have other : u ≠ m.thread label := by
      rintro rfl
      simp [awake] at sleeps
    obtain ⟨c, on⟩ := Option.isSome_iff_exists.mp waits
    obtain ⟨still, woken⟩ := lawful.wakes sound stepped other on unready
    refine ⟨by simp [still], Bool.eq_false_iff.mpr fun ready => ?_, fun lock held => ?_⟩
    · have signal := woken ready
      rcases sleeps.2 with nothing | different
      · simp [signal] at nothing
      · exact different (on.trans signal.symm)
    · exact outside lock (release_eq_some.mp held).1

omit [DecidableEq Lock] [DecidableEq Cond] in
theorem Invariant.sleep (inv : m.Invariant rank f)
    (waits : (m.waitsOn f.state t).isSome = true) (unready : m.ready f.state t = false) :
    m.Invariant rank
      { f with holder := release f.holder t, asleep := Function.update f.asleep t true } := by
  refine ⟨fun held => inv.mine (release_eq_some.mp held).1,
    fun held => inv.free (release_eq_some.mp held).1,
    fun held lock' member lower => ?_, fun {u} sleeps => ?_⟩
  · obtain ⟨held, other⟩ := release_eq_some.mp held
    exact release_eq_some.mpr ⟨inv.earlier held lock' member lower, other⟩
  · by_cases same : u = t
    · subst same
      exact ⟨waits, unready, fun lock held => (release_eq_some.mp held).2 rfl⟩
    · obtain ⟨waits, unready, outside⟩ := inv.sleepers (t := u) (by simpa [same] using sleeps)
      exact ⟨waits, unready, fun lock held => outside lock (release_eq_some.mp held).1⟩

omit [DecidableEq Lock] [DecidableEq Cond] in
theorem Invariant.spurious (inv : m.Invariant rank f) :
    m.Invariant rank { f with asleep := Function.update f.asleep t false } := by
  refine ⟨inv.mine, inv.free, inv.earlier, fun {u} sleeps => ?_⟩
  by_cases same : u = t
  · subst same
    simp at sleeps
  · exact inv.sleepers (by simpa [same] using sleeps)

theorem Invariant.next (inv : m.Invariant rank f) (lawful : m.Lawful holds rank top)
    (sound : holds f.state) {action : Action Label Thread} (stepped : m.next f action = some f') :
    m.Invariant rank f' := by
  cases action with
  | acquire t =>
    simp only [Monitor.next] at stepped
    split at stepped
    · next lock first =>
      split at stepped
      · next guards =>
        cases stepped
        exact inv.acquire lawful first guards.1 guards.2.1 guards.2.2
      · contradiction
    · contradiction
  | act label =>
    simp only [Monitor.next] at stepped
    split at stepped
    · next guards =>
      obtain ⟨s, moved, rfl⟩ := Option.map_eq_some_iff.mp stepped
      exact inv.act lawful sound guards.1 guards.2 moved
    · contradiction
  | sleep t =>
    simp only [Monitor.next] at stepped
    split at stepped
    · next guards =>
      cases stepped
      exact inv.sleep guards.2.2.1 guards.2.2.2
    · contradiction
  | spurious t =>
    simp only [Monitor.next] at stepped
    split at stepped
    · cases stepped
      exact inv.spurious
    · contradiction

/-- Seen from the step function, the system makes its steps and nothing else. -/
theorem state_of_next {action : Action Label Thread}
    (stepped : m.next f action = some f') :
    f'.state = f.state ∨ ∃ label, action = .act label ∧ m.step f.state label = some f'.state := by
  cases action with
  | act label =>
    simp only [Monitor.next] at stepped
    split at stepped
    · obtain ⟨s, moved, rfl⟩ := Option.map_eq_some_iff.mp stepped
      exact .inr ⟨label, rfl, moved⟩
    · contradiction
  | acquire t =>
    simp only [Monitor.next] at stepped
    split at stepped
    · split at stepped
      · cases stepped
        exact .inl rfl
      · contradiction
    · contradiction
  | sleep t | spurious t =>
    simp only [Monitor.next] at stepped
    split at stepped
    · cases stepped
      exact .inl rfl
    · contradiction

/-! ## Progress -/

/-- The system has a step that is not a spurious wakeup, and if it is one of the step function
its label is in `allowed`. -/
def CanMove (m : Monitor State Label Thread Lock Cond) (allowed : Label → Prop)
    (f : Threaded State Thread Lock) : Prop :=
  ∃ action f', m.next f action = some f' ∧ (∀ t, action ≠ .spurious t) ∧
    ∀ label, action = .act label → allowed label

variable {allowed : Label → Prop}

theorem canMove_of_step {label : Label} {s : State} (awake : f.asleep (m.thread label) = false)
    (complete : m.missing f (m.thread label) = none) (stepped : m.step f.state label = some s)
    (allows : allowed label) : m.CanMove allowed f := by
  have moves : (m.next f (.act label)).isSome = true := by
    simp [Monitor.next, awake, complete, stepped]
  obtain ⟨f', acted⟩ := Option.isSome_iff_exists.mp moves
  refine ⟨.act label, f', acted, by simp, ?_⟩
  rintro _ ⟨⟩
  exact allows

theorem canMove_of_sleep (awake : f.asleep t = false) (complete : m.missing f t = none)
    (waits : (m.waitsOn f.state t).isSome = true) (unready : m.ready f.state t = false) :
    m.CanMove allowed f := by
  have moves : (m.next f (.sleep t)).isSome = true := by
    simp [Monitor.next, awake, complete, waits, unready]
  obtain ⟨f', slept⟩ := Option.isSome_iff_exists.mp moves
  exact ⟨.sleep t, f', slept, by simp, by simp⟩

theorem canMove_of_acquire (awake : f.asleep t = false) (first : m.missing f t = some lock)
    (free : f.holder lock = none) (idle : m.busy f.state lock = false) : m.CanMove allowed f := by
  have moves : (m.next f (.acquire t)).isSome = true := by
    simp [Monitor.next, awake, first, free, idle]
  obtain ⟨f', acquired⟩ := Option.isSome_iff_exists.mp moves
  exact ⟨.acquire t, f', acquired, by simp, by simp⟩

omit [DecidableEq Thread] [DecidableEq Lock] [DecidableEq Cond] in
theorem Lawful.rank_injective (lawful : m.Lawful holds rank top) {s : State} {lock' : Lock}
    (member : lock ∈ m.wanted s t) (member' : lock' ∈ m.wanted s t)
    (same : rank lock = rank lock') : lock = lock' := by
  apply List.inj_on_of_nodup_map _ member member' same
  exact List.pairwise_map.mpr ((lawful.ordered s t).imp Nat.ne_of_lt)

/-- A thread inside a mutex can go on, or waits for one that can. -/
theorem canMove_of_held (inv : m.Invariant rank f) (lawful : m.Lawful holds rank top)
    (able : ∀ t, m.wanted f.state t ≠ [] →
      (∀ lock ∈ m.wanted f.state t, m.busy f.state lock = false) →
      (m.waitsOn f.state t).isSome = true ∧ m.ready f.state t = false ∨
      ∃ label s, m.thread label = t ∧ m.step f.state label = some s ∧ allowed label)
    (held : f.holder lock = some t) : m.CanMove allowed f := by
  -- Induction on how far the rank of the mutex is from the top.
  induction distance : top - rank lock using Nat.strongRecOn generalizing lock t with
  | _ distance inductionHypothesis =>
    subst distance
    have member := inv.mine held
    have awake : f.asleep t = false := Bool.eq_false_iff.mpr fun sleeps =>
      (inv.sleepers sleeps).2.2 lock held
    cases first : m.missing f t with
    | none =>
      have all := held_of_missing_none first
      rcases able t (List.ne_nil_of_mem member) fun lock' wanted => inv.free (all lock' wanted) with
        ⟨waits, unready⟩ | ⟨label, s, rfl, stepped, allows⟩
      · exact canMove_of_sleep awake first waits unready
      · exact canMove_of_step awake first stepped allows
    | some lock' =>
      obtain ⟨wanted, lacks, -⟩ := missing_some lawful first
      have higher : rank lock < rank lock' := by
        by_contra lower
        rcases Nat.lt_or_eq_of_le (Nat.not_lt.mp lower) with less | equal
        · exact lacks (inv.earlier held lock' wanted less)
        · exact lacks (lawful.rank_injective wanted member equal ▸ held)
      have later : lock' ∈ (m.wanted f.state t).tail := by
        cases list : m.wanted f.state t with
        | nil => simp [list] at wanted
        | cons head rest =>
          rw [list] at wanted
          rcases List.mem_cons.mp wanted with rfl | later
          · exact absurd (inv.first lawful held (by rw [list]; rfl)) lacks
          · exact later
      cases taken : f.holder lock' with
      | none => exact canMove_of_acquire awake first taken (lawful.leaf later)
      | some u =>
        have bounded := lawful.bounded lock'
        exact inductionHypothesis _ (by omega) taken rfl

/-- Where the step function has a step of an allowed kind, so has the system with its mutexes. -/
theorem canMove (inv : m.Invariant rank f) (lawful : m.Lawful holds rank top)
    (sound : holds f.state)
    (able : ∀ t, m.wanted f.state t ≠ [] →
      (∀ lock ∈ m.wanted f.state t, m.busy f.state lock = false) →
      (m.waitsOn f.state t).isSome = true ∧ m.ready f.state t = false ∨
      ∃ label s, m.thread label = t ∧ m.step f.state label = some s ∧ allowed label)
    {label : Label} {s : State} (stepped : m.step f.state label = some s)
    (allows : allowed label) : m.CanMove allowed f := by
  have awake : f.asleep (m.thread label) = false := by
    refine Bool.eq_false_iff.mpr fun sleeps => ?_
    obtain ⟨waits, unready, -⟩ := inv.sleepers sleeps
    simp [lawful.blocked sound stepped waits] at unready
  cases first : m.missing f (m.thread label) with
  | none => exact canMove_of_step awake first stepped allows
  | some lock =>
    cases taken : f.holder lock with
    | none =>
      exact canMove_of_acquire awake first taken
        (lawful.needs sound stepped (missing_some lawful first).1)
    | some t => exact canMove_of_held inv lawful able taken

end

end Monitor

end Library.Monitors

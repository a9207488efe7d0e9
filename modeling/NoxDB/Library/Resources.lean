import Mathlib.Order.Interval.Finset.Nat

/-! # Code that acquires and releases

Sequential code that acquires resources one by one, where each call may be refused, and
releases them again.  A resource rests on others: they have to be there when it is acquired
and may not go before it.  Releasing one may in addition ask for others to be there, as a
thread can be joined only after it was told to end.  A world remembers whether a call ever
broke these rules.

Two specifications compose.  Code `Frees` a set if it releases exactly this set, in the
presence of anything that does not rest on it.  Code `Completes` a set from a part of it if it
either acquires the rest or releases the part: so specified, an error path is checked
together with the place that jumps to it.
-/

namespace Library.Resources

structure Discipline (R : Type) where
  restsOn : R → Finset R
  /-- What has to be there when the resource is released. -/
  toRelease : R → Finset R

structure World (R : Type) where
  held : Finset R
  /-- Whether the calls that may be refused succeed, from the next one on. -/
  answers : Nat → Bool
  misused : Bool

abbrev Prog (R α : Type) := StateM (World R) α

variable {R α β : Type}

/-- Started with exactly `held`, the code breaks no rule, whichever of its calls are refused,
and ends with a result and holdings in `post`. -/
def Ends (held : Finset R) (p : Prog R α) (post : α → Finset R → Prop) : Prop :=
  ∀ w : World R, w.held = held → w.misused = false →
    (p w).2.misused = false ∧ post (p w).1 (p w).2.held

namespace Ends

variable {held : Finset R} {p : Prog R α} {f : α → Prog R β} {post mid : α → Finset R → Prop}
  {last : β → Finset R → Prop}

theorem pure {a : α} (h : post a held) : Ends held (pure a : Prog R α) post := by
  rintro w rfl clean
  exact ⟨clean, h⟩

theorem bind (first : Ends held p mid) (next : ∀ a now, mid a now → Ends now (f a) last) :
    Ends held (p >>= f) last := by
  intro w here clean
  obtain ⟨stillClean, reached⟩ := first w here clean
  exact next _ _ reached _ rfl stillClean

theorem mono (h : Ends held p mid) (weaker : ∀ a now, mid a now → post a now) :
    Ends held p post := by
  intro w here clean
  obtain ⟨stillClean, reached⟩ := h w here clean
  exact ⟨stillClean, weaker _ _ reached⟩

end Ends

variable [DecidableEq R]

namespace Discipline

variable (d : Discipline R)

def MayAcquire (held : Finset R) (r : R) : Prop := r ∉ held ∧ d.restsOn r ⊆ held

def MayRelease (held : Finset R) (r : R) : Prop :=
  r ∈ held ∧ d.toRelease r ⊆ held ∧ ∀ x ∈ held, r ∉ d.restsOn x

instance (held : Finset R) (r : R) : Decidable (d.MayAcquire held r) :=
  inferInstanceAs (Decidable (_ ∧ _))

instance (held : Finset R) (r : R) : Decidable (d.MayRelease held r) :=
  inferInstanceAs (Decidable (_ ∧ _ ∧ _))

/-- A call that cannot be refused. -/
def establish (r : R) : Prog R Unit := fun w =>
  ((), { w with
    held := insert r w.held
    misused := w.misused || !decide (d.MayAcquire w.held r) })

def acquire (r : R) : Prog R Bool := fun w =>
  (w.answers 0,
    { held := if w.answers 0 then insert r w.held else w.held
      answers := fun i => w.answers (i + 1)
      misused := w.misused || !decide (d.MayAcquire w.held r) })

def release (r : R) : Prog R Unit := fun w =>
  ((), { w with
    held := w.held.erase r
    misused := w.misused || !decide (d.MayRelease w.held r) })

/-- Acquires `f i`, `f (i + 1)`, … up to the first call that is refused, at most `n` of them,
and returns how many. -/
def acquireFrom (f : Nat → R) : Nat → Nat → Prog R Nat
  | _, 0 => pure 0
  | i, n + 1 => do
    if ← d.acquire (f i) then
      return (← acquireFrom f (i + 1) n) + 1
    else
      return 0

/-- Releases `f i`, `f (i + 1)`, …, `n` of them. -/
def releaseFrom (f : Nat → R) : Nat → Nat → Prog R Unit
  | _, 0 => pure ()
  | i, n + 1 => do
    d.release (f i)
    releaseFrom f (i + 1) n

/-- `f i`, `f (i + 1)`, …, `n` of them. -/
def family (f : Nat → R) (i n : Nat) : Finset R := (Finset.Ico i (i + n)).image f

end Discipline

/-- Forgets a resource that another one takes with it. -/
def discard (r : R) : Prog R Unit := fun w => ((), { w with held := w.held.erase r })

namespace Ends

variable {d : Discipline R} {held : Finset R} {r : R}

theorem establish (h : d.MayAcquire held r) :
    Ends held (d.establish r) fun _ now => now = insert r held := by
  rintro w rfl clean
  simp [Discipline.establish, clean, h]

theorem acquire (h : d.MayAcquire held r) :
    Ends held (d.acquire r) fun ok now => now = if ok then insert r held else held := by
  rintro w rfl clean
  simp [Discipline.acquire, clean, h]

theorem release (h : d.MayRelease held r) :
    Ends held (d.release r) fun _ now => now = held.erase r := by
  rintro w rfl clean
  simp [Discipline.release, clean, h]

theorem discard : Ends held (discard r) fun _ now => now = held.erase r := by
  rintro w rfl clean
  simp [Resources.discard, clean]

end Ends

namespace Discipline

variable (d : Discipline R)

/-- Nothing of `own` is in `held`, and nothing in `held` rests on it. -/
def Apart (own held : Finset R) : Prop := ∀ r ∈ own, r ∉ held ∧ ∀ x ∈ held, r ∉ d.restsOn x

/-- In the presence of `context` the code releases exactly `own` and returns `result`. -/
def Frees (context own : Finset R) (p : Prog R α) (result : α) : Prop :=
  ∀ held, context ⊆ held → d.Apart own held →
    Ends (own ∪ held) p fun a now => a = result ∧ now = held

/-- Started with `part` in the presence of `context`, the code either acquires the rest of
`own` and succeeds or releases `part` and fails. -/
def Completes (context own part : Finset R) (p : Prog R Bool) : Prop :=
  ∀ held, context ⊆ held → d.Apart own held →
    Ends (part ∪ held) p fun ok now => now = if ok then own ∪ held else held

variable {d} {context own part sub : Finset R} {r : R} {p : Prog R α} {a : α}

omit [DecidableEq R] in
theorem Apart.mono {small held : Finset R} (h : d.Apart own held)
    (inside : small ⊆ own) : d.Apart small held :=
  fun r mem => h r (inside mem)

omit [DecidableEq R] in
theorem Apart.fewer {less held : Finset R} (h : d.Apart own held) (inside : less ⊆ held) :
    d.Apart own less :=
  fun r mem => ⟨fun here => (h r mem).1 (inside here), fun x here => (h r mem).2 x (inside here)⟩

theorem Apart.union {held more : Finset R} (h : d.Apart own held) (other : d.Apart own more) :
    d.Apart own (held ∪ more) := by
  intro r mem
  obtain ⟨absent, free⟩ := h r mem
  obtain ⟨absentMore, freeMore⟩ := other r mem
  refine ⟨by simp [absent, absentMore], fun x held => ?_⟩
  rcases Finset.mem_union.mp held with inHeld | inMore
  · exact free x inHeld
  · exact freeMore x inMore

theorem Frees.pure : d.Frees context ∅ (pure a : Prog R α) a := by
  intro held _ _
  exact Ends.pure (by simp)

/-- A call that releases `sub`, followed by code that releases the rest. -/
theorem Frees.call {inner : Finset R} {q : Prog R β} {b : β} (first : d.Frees inner sub q b)
    (next : d.Frees context own p a) (has : inner ⊆ own ∪ context) (apart : d.Apart sub own) :
    d.Frees context (sub ∪ own) (q >>= fun _ => p) a := by
  intro held given free
  have later : d.Apart own held := free.mono Finset.subset_union_right
  have now : d.Apart sub (own ∪ held) := apart.union (free.mono Finset.subset_union_left)
  rw [Finset.union_assoc]
  refine (first _ (has.trans (Finset.union_subset_union_right given)) now).bind ?_
  rintro _ _ ⟨-, rfl⟩
  exact next held given later

theorem Frees.one (alone : r ∉ d.restsOn r) (has : d.toRelease r ⊆ context) :
    d.Frees context {r} (d.release r) () := by
  intro held given free
  obtain ⟨absent, unused⟩ := free r (Finset.mem_singleton_self r)
  have may : d.MayRelease ({r} ∪ held) r := by
    refine ⟨by simp, (has.trans given).trans Finset.subset_union_right, ?_⟩
    intro x mem
    rcases Finset.mem_union.mp mem with same | inHeld
    · exact (Finset.mem_singleton.mp same) ▸ alone
    · exact unused x inHeld
  refine (Ends.release may).mono ?_
  rintro _ _ rfl
  exact ⟨rfl, by simp [Finset.erase_insert absent]⟩

theorem Frees.last (alone : r ∉ d.restsOn r) (has : d.toRelease r ⊆ context) :
    d.Frees context {r} (d.release r >>= fun _ => (Pure.pure a : Prog R α)) a := by
  have whole := (Frees.one alone has).call
    (Frees.pure : d.Frees context ∅ (Pure.pure a : Prog R α) a) (by simp) (by simp [Apart])
  simpa using whole

theorem Frees.release (next : d.Frees context own p a) (alone : r ∉ d.restsOn r)
    (has : d.toRelease r ⊆ own ∪ context) (fresh : r ∉ own) (unused : ∀ x ∈ own, r ∉ d.restsOn x) :
    d.Frees context (insert r own) (d.release r >>= fun _ => p) a := by
  rw [Finset.insert_eq]
  refine (Frees.one alone le_rfl).call next has ?_
  intro x mem
  obtain rfl := Finset.mem_singleton.mp mem
  exact ⟨fresh, unused⟩

/-- A flag is raised that rests on something of `own` and on which nothing rests. -/
theorem Frees.establish (next : d.Frees context (insert r own) p a) (fresh : r ∉ own)
    (rests : d.restsOn r ⊆ own ∪ context) (anchored : ∃ x ∈ own, x ∈ d.restsOn r)
    (leaf : ∀ x, r ∉ d.restsOn x) : d.Frees context own (d.establish r >>= fun _ => p) a := by
  intro held given free
  obtain ⟨anchor, inside, under⟩ := anchored
  have absent : r ∉ held := fun mem => (free anchor inside).2 r mem under
  have may : d.MayAcquire (own ∪ held) r :=
    ⟨by simp [fresh, absent], rests.trans (Finset.union_subset_union_right given)⟩
  refine (Ends.establish may).bind ?_
  rintro _ _ rfl
  rw [← Finset.insert_union]
  refine next held given fun x mem => ?_
  rcases Finset.mem_insert.mp mem with rfl | old
  · exact ⟨absent, fun y _ => leaf y⟩
  · exact free x old

theorem Frees.discard (next : d.Frees context own p a) (fresh : r ∉ own)
    (anchored : ∃ x ∈ own, x ∈ d.restsOn r) :
    d.Frees context own (discard r >>= fun _ => p) a := by
  intro held given free
  obtain ⟨anchor, inside, under⟩ := anchored
  have absent : r ∉ own ∪ held := by
    have elsewhere : r ∉ held := fun mem => (free anchor inside).2 r mem under
    simp [fresh, elsewhere]
  refine Ends.discard.bind ?_
  rintro _ _ rfl
  rw [Finset.erase_eq_of_notMem absent]
  exact next held given free

theorem Frees.discard_held (next : d.Frees context own p a) (fresh : r ∉ own) :
    d.Frees context (insert r own) (Resources.discard r >>= fun _ => p) a := by
  intro held given free
  have absent : r ∉ own ∪ held := by
    have elsewhere := (free r (Finset.mem_insert_self r own)).1
    simp [fresh, elsewhere]
  refine Ends.discard.bind ?_
  rintro _ _ rfl
  rw [Finset.insert_union, Finset.erase_insert absent]
  exact next held given (free.mono (Finset.subset_insert r own))

theorem Completes.pure : d.Completes context own own (pure true) := by
  intro held _ _
  exact Ends.pure (by simp)

theorem Completes.one : d.Completes (d.restsOn r) {r} ∅ (d.acquire r) := by
  intro held given free
  rw [Finset.empty_union]
  refine (Ends.acquire ⟨(free r (Finset.mem_singleton_self r)).1, given⟩).mono ?_
  rintro ok _ rfl
  rfl

/-- A call that acquires `sub` or fails; on failure the code goes to `undo`. -/
theorem Completes.call {inner : Finset R} {q undo rest : Prog R Bool}
    (first : d.Completes inner sub ∅ q) (undone : d.Frees context part undo false)
    (next : d.Completes context own (sub ∪ part) rest) (has : inner ⊆ part ∪ context)
    (apart : d.Apart sub part) (inside : sub ∪ part ⊆ own) :
    d.Completes context own part (q >>= fun ok => if (!ok) = true then undo else rest) := by
  intro held given free
  have now : d.Apart sub (part ∪ held) :=
    apart.union (free.mono (Finset.subset_union_left.trans inside))
  have called := first _ (has.trans (Finset.union_subset_union_right given)) now
  rw [Finset.empty_union] at called
  refine called.bind ?_
  rintro ok _ rfl
  cases ok with
  | false =>
    refine (undone held given (free.mono (Finset.subset_union_right.trans inside))).mono ?_
    rintro _ _ ⟨rfl, rfl⟩
    rfl
  | true =>
    have completed := next held given free
    rwa [Finset.union_assoc] at completed

theorem Completes.acquire {undo rest : Prog R Bool} (undone : d.Frees context part undo false)
    (next : d.Completes context own (insert r part) rest) (rests : d.restsOn r ⊆ part ∪ context)
    (fresh : r ∉ part) (unused : ∀ x ∈ part, r ∉ d.restsOn x) (inside : insert r part ⊆ own) :
    d.Completes context own part
      (d.acquire r >>= fun ok => if (!ok) = true then undo else rest) := by
  rw [Finset.insert_eq] at next inside
  refine Completes.one.call undone next rests ?_ inside
  intro x mem
  obtain rfl := Finset.mem_singleton.mp mem
  exact ⟨fresh, unused⟩

theorem Completes.first {rest : Prog R Bool} (next : d.Completes context own {r} rest)
    (rests : d.restsOn r ⊆ context) (inside : r ∈ own) :
    d.Completes context own ∅
      (d.acquire r >>= fun ok => if (!ok) = true then Pure.pure false else rest) := by
  refine Completes.acquire Frees.pure ?_ (by simpa using rests) (by simp) (by simp)
    (by simpa using inside)
  simpa using next

/-- Two calls that are both made before either is looked at. -/
theorem Completes.both {inner other : Finset R} {q q' rest : Prog R Bool}
    {undo : Bool → Bool → Prog R Bool} (first : d.Completes inner sub ∅ q)
    (second : d.Completes inner other ∅ q')
    (undone : ∀ made made', (made && made') = false →
      d.Frees context ((if made then sub else ∅) ∪ ((if made' then other else ∅) ∪ part))
        (undo made made') false)
    (next : d.Completes context own (sub ∪ (other ∪ part)) rest) (has : inner ⊆ part ∪ context)
    (apart : d.Apart sub part) (apart' : d.Apart other (sub ∪ part))
    (inside : sub ∪ (other ∪ part) ⊆ own) :
    d.Completes context own part (q >>= fun made => q' >>= fun made' =>
      if (!made || !made') = true then undo made made' else rest) := by
  intro held given free
  have small : sub ⊆ own := Finset.subset_union_left.trans inside
  have large : other ∪ part ⊆ own := Finset.subset_union_right.trans inside
  have given' : inner ⊆ part ∪ held := has.trans (Finset.union_subset_union_right given)
  have called := first _ given' (apart.union (free.mono small))
  rw [Finset.empty_union] at called
  refine called.bind ?_
  rintro made _ rfl
  have taken : (if made then sub else ∅) ⊆ sub := by cases made <;> simp
  have now : (if made then sub ∪ (part ∪ held) else part ∪ held) =
      ((if made then sub else ∅) ∪ part) ∪ held := by
    cases made <;> simp
  have apartNow : d.Apart other ((if made then sub else ∅) ∪ part) :=
    apart'.fewer (Finset.union_subset_union_left taken)
  rw [now]
  have calledNext := second _
    (given'.trans (Finset.union_subset_union_left Finset.subset_union_right))
    (apartNow.union (free.mono (Finset.subset_union_left.trans large)))
  rw [Finset.empty_union] at calledNext
  refine calledNext.bind ?_
  rintro made' _ rfl
  have taken' : (if made' then other else ∅) ⊆ other := by cases made' <;> simp
  have later : (if made' then other ∪ (((if made then sub else ∅) ∪ part) ∪ held)
      else ((if made then sub else ∅) ∪ part) ∪ held) =
      ((if made then sub else ∅) ∪ ((if made' then other else ∅) ∪ part)) ∪ held := by
    cases made' <;> simp [Finset.union_left_comm]
  rw [later]
  cases both : made && made' with
  | false =>
    have refused : (!made || !made') = true := by rw [← Bool.not_and, both, Bool.not_false]
    rw [if_pos refused]
    have mine : (if made then sub else ∅) ∪ ((if made' then other else ∅) ∪ part) ⊆ own :=
      (Finset.union_subset_union taken (Finset.union_subset_union_left taken')).trans inside
    refine (undone made made' both held given (free.mono mine)).mono ?_
    rintro _ _ ⟨rfl, rfl⟩
    rfl
  | true =>
    obtain ⟨rfl, rfl⟩ := Bool.and_eq_true_iff.mp both
    exact next held given free

theorem Completes.establish {rest : Prog R Bool}
    (next : d.Completes context own (insert r part) rest) (fresh : r ∉ part) (inside : r ∈ own)
    (rests : d.restsOn r ⊆ part ∪ context) :
    d.Completes context own part (d.establish r >>= fun _ => rest) := by
  intro held given free
  have absent := (free r inside).1
  have may : d.MayAcquire (part ∪ held) r :=
    ⟨by simp [fresh, absent], rests.trans (Finset.union_subset_union_right given)⟩
  refine (Ends.establish may).bind ?_
  rintro _ _ rfl
  rw [← Finset.insert_union]
  exact next held given free

section Families

variable {f : Nat → R}

theorem mem_family {i n : Nat} {r : R} : r ∈ family f i n ↔ ∃ k, (i ≤ k ∧ k < i + n) ∧ f k = r := by
  simp [family]

theorem family_succ (i n : Nat) : family f i (n + 1) = {f i} ∪ family f (i + 1) n := by
  have split : Finset.Ico i (i + (n + 1)) = insert i (Finset.Ico (i + 1) (i + 1 + n)) := by
    ext k
    simp only [Finset.mem_Ico, Finset.mem_insert]
    omega
  rw [family, split, Finset.image_insert, Finset.insert_eq]
  rfl

theorem Frees.releaseFrom (inj : Function.Injective f) (unrelated : ∀ j k, f k ∉ d.restsOn (f j))
    (has : ∀ k, d.toRelease (f k) ⊆ context) :
    ∀ i n, d.Frees context (family f i n) (d.releaseFrom f i n) ()
  | i, 0 => by simpa [family, Discipline.releaseFrom] using Frees.pure
  | i, n + 1 => by
    rw [family_succ]
    have apart : d.Apart {f i} (family f (i + 1) n) := by
      intro r mem
      obtain rfl := Finset.mem_singleton.mp mem
      refine ⟨fun here => ?_, fun x here => ?_⟩
      · obtain ⟨k, ⟨low, -⟩, same⟩ := mem_family.mp here
        have := inj same
        omega
      · obtain ⟨k, -, rfl⟩ := mem_family.mp here
        exact unrelated k i
    exact (Frees.one (unrelated i i) (has i)).call
      (Frees.releaseFrom inj unrelated has (i + 1) n) Finset.subset_union_right apart

theorem ends_acquireFrom (inj : Function.Injective f) : ∀ (i n : Nat) (held : Finset R),
    (∀ k, d.restsOn (f k) ⊆ held) → (∀ k, i ≤ k → k < i + n → f k ∉ held) →
      Ends held (d.acquireFrom f i n) fun k now => k ≤ n ∧ now = family f i k ∪ held
  | i, 0, held, _, _ => Ends.pure (by simp [family])
  | i, n + 1, held, rests, fresh => by
    have may : d.MayAcquire held (f i) := ⟨fresh i le_rfl (by omega), rests i⟩
    refine (Ends.acquire may).bind ?_
    rintro ok _ rfl
    cases ok with
    | false => exact Ends.pure (by simp [family])
    | true =>
      have later := ends_acquireFrom inj (i + 1) n (insert (f i) held)
        (fun k => (rests k).trans (Finset.subset_insert _ _)) (by
          intro k low high
          have other : f k ≠ f i := fun same => by
            have := inj same
            omega
          simp [other, fresh k (by omega) (by omega)])
      refine later.bind ?_
      rintro k _ ⟨bound, rfl⟩
      refine Ends.pure ⟨by omega, ?_⟩
      rw [family_succ]
      ext x
      simp only [Finset.mem_union, Finset.mem_insert, Finset.mem_singleton]
      tauto

/-- A loop that acquires `n` resources; at the first refusal the code goes to `undo` with the
number of those that it has. -/
theorem Completes.loop {n : Nat} {undo : Nat → Prog R Bool} {rest : Prog R Bool}
    (inj : Function.Injective f) (rests : ∀ k, d.restsOn (f k) ⊆ part ∪ context)
    (fresh : ∀ k, f k ∉ part)
    (undone : ∀ k < n, d.Frees context (family f 0 k ∪ part) (undo k) false)
    (next : d.Completes context own (family f 0 n ∪ part) rest)
    (inside : family f 0 n ∪ part ⊆ own) :
    d.Completes context own part
      (d.acquireFrom f 0 n >>= fun k => if k < n then undo k else rest) := by
  intro held given free
  have absent : ∀ k, 0 ≤ k → k < 0 + n → f k ∉ part ∪ held := by
    intro k low high
    have mine : f k ∈ own :=
      inside (Finset.mem_union_left _ (mem_family.mpr ⟨k, ⟨low, high⟩, rfl⟩))
    simp [fresh k, (free _ mine).1]
  refine (ends_acquireFrom inj 0 n _
    (fun k => (rests k).trans (Finset.union_subset_union_right given)) absent).bind ?_
  rintro k _ ⟨bound, rfl⟩
  rw [← Finset.union_assoc]
  by_cases short : k < n
  · rw [if_pos short]
    have fewer : family f 0 k ∪ part ⊆ own := by
      refine (Finset.union_subset_union_left ?_).trans inside
      intro x mem
      obtain ⟨j, ⟨low, high⟩, rfl⟩ := mem_family.mp mem
      exact mem_family.mpr ⟨j, ⟨low, by omega⟩, rfl⟩
    refine (undone k short held given (free.mono fewer)).mono ?_
    rintro _ _ ⟨rfl, rfl⟩
    rfl
  · obtain rfl : k = n := by omega
    rw [if_neg short]
    exact next held given free

end Families

end Discipline

/-- The code returns a result in `good` exactly if none of the next `n` answers is a refusal,
and then these are the answers that it has used. -/
structure Asks (n : Nat) (p : Prog R α) (good : α → Prop) : Prop where
  granted : ∀ w, (∀ i < n, w.answers i = true) →
    good (p w).1 ∧ (p w).2.answers = fun i => w.answers (i + n)
  refused : ∀ w, (∃ i < n, w.answers i = false) → ¬ good (p w).1

namespace Asks

variable {d : Discipline R} {r : R} {n m : Nat} {p : Prog R α} {f : α → Prog R β}
  {good : α → Prop} {ok : β → Prop}

omit [DecidableEq R] in
theorem pure {a : α} (h : good a) : Asks 0 (pure a : Prog R α) good where
  granted := fun _ _ => ⟨h, rfl⟩
  refused := fun _ ⟨_, impossible, _⟩ => absurd impossible (Nat.not_lt_zero _)

theorem acquire : Asks 1 (d.acquire r) (· = true) where
  granted := fun _ all => ⟨all 0 Nat.one_pos, rfl⟩
  refused := by
    rintro w ⟨i, low, refusal⟩
    obtain rfl : i = 0 := by omega
    simpa [Discipline.acquire] using refusal

theorem establish : Asks 0 (d.establish r) fun _ => True where
  granted := fun _ _ => ⟨trivial, rfl⟩
  refused := fun _ ⟨_, impossible, _⟩ => absurd impossible (Nat.not_lt_zero _)

omit [DecidableEq R] in
theorem bind (first : Asks n p good) (next : ∀ a, good a → Asks m (f a) ok)
    (undone : ∀ a, ¬ good a → ∀ w, ¬ ok (f a w).1) : Asks (n + m) (p >>= f) ok where
  granted := by
    intro w all
    obtain ⟨fine, later⟩ := first.granted w fun i low => all i (by omega)
    obtain ⟨done, last⟩ := (next _ fine).granted (p w).2 fun i low => by
      rw [later]
      exact all (i + n) (by omega)
    refine ⟨done, last.trans ?_⟩
    rw [later]
    exact funext fun i => congrArg w.answers (by omega)
  refused := by
    rintro w ⟨i, low, refusal⟩
    show ¬ ok (f (p w).1 (p w).2).1
    by_cases fine : good (p w).1
    · -- A good result means that the refusal is one of the answers left to the second part.
      have all : ∀ j < n, w.answers j = true := by
        intro j below
        by_contra other
        exact first.refused w ⟨j, below, by simpa using other⟩ fine
      have high : n ≤ i := by
        by_contra below
        simp [all i (by omega)] at refusal
      refine (next _ fine).refused _ ⟨i - n, by omega, ?_⟩
      rw [(first.granted w all).2]
      simpa [Nat.sub_add_cancel high] using refusal
    · exact undone _ fine _

theorem acquireFrom {f : Nat → R} : ∀ i n, Asks n (d.acquireFrom f i n) (n ≤ ·)
  | _, 0 => Asks.pure le_rfl
  | i, n + 1 => by
    have rest : Asks n (do return (← d.acquireFrom f (i + 1) n) + 1 : Prog R Nat) (n + 1 ≤ ·) := by
      refine (acquireFrom (i + 1) n).bind (fun k all => Asks.pure (Nat.succ_le_succ all)) ?_
      intro k short w full
      exact short (Nat.le_of_succ_le_succ full)
    have whole : Asks (1 + n) (d.acquireFrom f i (n + 1)) (n + 1 ≤ ·) := by
      refine Asks.acquire.bind (fun given yes => ?_) fun given no w => ?_
      · simpa [yes] using rest
      · rw [if_neg no]
        exact Nat.not_succ_le_zero n
    rwa [Nat.add_comm] at whole

end Asks

end Library.Resources

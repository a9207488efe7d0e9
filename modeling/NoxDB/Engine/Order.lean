import NoxDB.Engine.Ownership

/-! # The order of pages of one base

As long as no I/O error is latched every live page is queued or about to be queued by
the thread that holds it, and the pages of one base are queued in the order in which
they were created.  Two things could break that order and are excluded step by step:
a page that goes straight to Queue-2 past an older page of its base, and an address
that is handed out again while a thread still has to detach the page that lived there.
-/

namespace NoxDB

open Function (update)
open Library.Lists

variable {n : Nat}

/-- The page a thread created or took up and has not pushed yet. -/
def Role.carried : Role → Option PageId
  | .holds p true => some p
  | .pushing p _ => some p
  | _ => .none

theorem Role.held_of_carried {r : Role} {p : PageId} (carried : r.carried = some p) :
    r.held = some p := by
  cases r with
  | holds q fresh => cases fresh <;> simp_all [Role.carried, held]
  | _ => simp_all [Role.carried, held]

namespace Custody

variable {c c' : Custody n}

theorem Ownership.outside_of_carried (inv : c.Ownership) {o : Owner n} {p : PageId}
    (carried : (c.role o).carried = some p) : c.Alive p ∧ p ∉ c.pipe := by
  have rights := inv.rights o
  cases role : c.role o with
  | holds q fresh =>
    rw [role] at carried rights
    cases fresh with
    | true =>
      obtain rfl : q = p := by simpa [Role.carried] using carried
      exact ⟨rights.1, (rights.2.2 rfl).1⟩
    | false => simp [Role.carried] at carried
  | pushing q e =>
    rw [role] at carried rights
    obtain rfl : q = p := by simpa [Role.carried] using carried
    exact rights
  | none | wants | points => simp [role, Role.carried] at carried

/-! ## The index holds the newest page of a base -/

def Newest (c : Custody n) : Prop :=
  ∀ b, ∀ p ∈ c.buckets b, ∀ q < c.created, c.base q = c.base p → q ≤ p

theorem Newest.step (inv : c.Ownership) (newest : c.Newest) (step : c.Step c') : c'.Newest := by
  cases step with
  | @create t base address idle free absent unused =>
    intro b p member q current same
    rcases mem_update_cons.mp member with ⟨rfl, rfl⟩ | linked
    · exact Nat.lt_succ_iff.mp current
    · have older := Nat.ne_of_lt (inv.indexed b p linked).1.1
      dsimp only at same
      rw [Function.update_of_ne older] at same
      by_cases new : q = c.created
      · -- The lookup found no page of the new page's base.
        subst new
        rw [Function.update_self] at same
        obtain rfl : piHash base = b := by rw [same]; exact (inv.indexed b p linked).2
        exact absurd same.symm (absent p linked)
      · rw [Function.update_of_ne new] at same
        exact newest b p linked q (Nat.lt_of_le_of_ne (Nat.lt_succ_iff.mp current) new) same
  | abandon | unlink => exact fun b p member => newest b p (mem_of_mem_unlinkAddr member)
  | destroy => exact fun b p member => by simp at member
  | _ => exact newest

theorem Step.freed_mono (step : c.Step c') {p : PageId} (freed : c.freed p = true) :
    c'.freed p = true := by
  cases step with
  | @free q rest front =>
    by_cases same : p = q
    · simp [same]
    · simpa [same] using freed
  | destroy => simp [freed]
  | _ => exact freed

theorem Step.alive_before (step : c.Step c') {p : PageId} (old : p < c.created)
    (alive : c'.Alive p) : c.Alive p := by
  refine ⟨old, Bool.eq_false_iff.mpr fun freed => ?_⟩
  simp [step.freed_mono freed, Alive] at alive

/-! ## The address of a page that is about to be detached -/

/-- No other page lives at the address a thread is going to detach. -/
def Pointed (c : Custody n) : Prop :=
  ∀ o p, c.role o = .points p → ∀ q, c.Alive q → c.addr q = c.addr p → q = p

/-- A created page does not take the address of a page that is still to be detached. -/
def Fenced (c c' : Custody n) : Prop :=
  ∀ o p, c.role o = .points p → ∀ q, c.created ≤ q → q < c'.created → c'.addr q ≠ c.addr p

theorem Pointed.reassign (pointed : c.Pointed) {o : Owner n} {r : Role}
    (other : ∀ p, r ≠ .points p) : Pointed { c with role := update c.role o r } := by
  intro o' p points
  by_cases same : o' = o
  · subst same
    exact absurd (by simpa using points) (other p)
  · exact pointed o' p (by simpa [same] using points)

theorem Pointed.step (inv : c.Ownership) (pointed : c.Pointed) (step : c.Step c')
    (fenced : c.Fenced c') : c'.Pointed := by
  have earlier : ∀ {q}, q < c.created → c'.Alive q → c.Alive q := step.alive_before
  cases step with
  | want | acquire | enlist | sweep | advance | pushPartial | pushFull | abandon =>
    exact pointed.reassign (by simp)
  | settle | fill | drop | forward | unlink | tag | latch => exact pointed
  | free | destroy =>
    exact fun o p points q alive => pointed o p points q (earlier alive.1 alive)
  | @release o p r holds next =>
    intro o' p' points q alive same
    by_cases mine : o' = o
    · -- The thread holds the page until now, so it is alive.
      subst mine
      have points : r = .points p' := by simpa using points
      obtain rfl : p = p' := by
        rcases next with none | kept
        · simp [none] at points
        · exact (Role.points.inj (kept.symm.trans points))
      exact inv.address q p alive (inv.alive_of_held (by rw [holds]; rfl)).1 same
    · exact pointed o' p' (by simpa [mine] using points) q alive same
  | @create t base address idle free absent unused =>
    intro o p points q alive same
    by_cases mine : o = .fg t
    · subst mine
      simp at points
    · have points : c.role o = .points p := by simpa [mine] using points
      have old : p < c.created := by
        have rights := inv.rights o
        rw [points] at rights
        exact rights
      have untouched : update c.addr c.created address p = c.addr p :=
        Function.update_of_ne (Nat.ne_of_lt old) _ _
      dsimp only at same
      rw [untouched] at same
      by_cases new : q = c.created
      · exact absurd same (fenced o p points q (Nat.le_of_eq new.symm) alive.1)
      · have older : q < c.created := Nat.lt_of_le_of_ne (Nat.lt_succ_iff.mp alive.1) new
        rw [Function.update_of_ne new] at same
        exact pointed o p points q (earlier older alive) same

/-! ## The pipe is sorted -/

structure Orderly (c : Custody n) : Prop where
  present : ∀ p, c.Alive p → p ∈ c.pipe ∨ ∃ o, (c.role o).carried = some p
  linked : ∀ o p, (c.role o).carried = some p → p ∈ c.buckets (piHash (c.base p))
  sorted : c.pipe.Pairwise fun p q => c.base p = c.base q → p < q
  straight : ∀ o p e, c.role o = .pushing p e → e.isFull = true →
    ∀ q ∈ c.late, c.base q ≠ c.base p
  handed : ∀ o p, c.role o = .points p → p ∈ c.pipe ∨ c.freed p = true
  retired : ∀ p, c.freed p = true → ∀ q < p, c.base q = c.base p → c.freed q = true

/-- What is asked of a step: it latches no error, and a thread that starts to push a page
straight to Queue-2 leaves no older page of its base behind. -/
structure Regular (c c' : Custody n) : Prop where
  clean : c'.failed = false
  straight : ∀ t p e, c.role (.fg t) = .holds p true → c'.role (.fg t) = .pushing p e →
    e.isFull = true → ∀ q ∈ c.late, c.base q ≠ c.base p

namespace Orderly

variable (inv : c.Ownership) (newest : c.Newest) (pointed : c.Pointed) (orderly : c.Orderly)

/-- Roles change without a page being taken up or given away. -/
theorem reassign (orderly : c.Orderly) {o : Owner n} {r : Role} (carried : r.carried = (c.role o).carried)
    (straight : ∀ p e, r = .pushing p e → e.isFull = true → ∀ q ∈ c.late, c.base q ≠ c.base p)
    (handed : ∀ p, r = .points p → p ∈ c.pipe ∨ c.freed p = true) :
    Orderly { c with role := update c.role o r } := by
  have same : ∀ o', (update c.role o r o').carried = (c.role o').carried := by
    intro o'
    by_cases mine : o' = o
    · subst mine; simpa using carried
    · simp [mine]
  refine { orderly with
    present := fun p alive => ?_
    linked := fun o' p => ?_
    straight := fun o' p e pushes => ?_
    handed := fun o' p points => ?_ }
  · rcases orderly.present p alive with queued | ⟨o', carries⟩
    · exact .inl queued
    · exact .inr ⟨o', (same o').trans carries⟩
  · simpa only [same] using orderly.linked o' p
  · by_cases mine : o' = o
    · subst mine
      exact straight p e (by simpa using pushes)
    · exact orderly.straight o' p e (by simpa [mine] using pushes)
  · by_cases mine : o' = o
    · subst mine
      exact handed p (by simpa using points)
    · exact orderly.handed o' p (by simpa [mine] using points)

/-- Queued pages move on without changing their order. -/
theorem rearrange (orderly : c.Orderly) (tagged : List PageId) (unlinked : Option PageId)
    (early late : List PageId)
    (same : tagged ++ (unlinked.toList ++ early ++ late) = c.pipe) (fewer : ∀ q ∈ late, q ∈ c.late) :
    Orderly { c with tagged, unlinked, early, late } := by
  have whole : pipe { c with tagged, unlinked, early, late } = c.pipe := same
  exact { orderly with
    present := fun p alive => whole ▸ orderly.present p alive
    sorted := whole ▸ orderly.sorted
    straight := fun o p e pushes straight q among =>
      orderly.straight o p e pushes straight q (fewer q among)
    handed := fun o p points => whole ▸ orderly.handed o p points }

include inv orderly

/-- A page that its holder does not carry is queued. -/
theorem queued_of_held {o : Owner n} {p : PageId} (held : (c.role o).held = some p)
    (idle : (c.role o).carried ≠ some p) : p ∈ c.pipe := by
  rcases orderly.present p (inv.alive_of_held held).1 with queued | ⟨o', carried⟩
  · exact queued
  · obtain rfl := inv.same_holder held (Role.held_of_carried carried)
    exact absurd carried idle

include newest

omit inv in
/-- A live page with a newer page of its base is queued. -/
theorem queued_of_older {p q : PageId} (alive : c.Alive p) (younger : p < q) (current : q < c.created)
    (same : c.base q = c.base p) : p ∈ c.pipe := by
  rcases orderly.present p alive with queued | ⟨o, carried⟩
  · exact queued
  · exact absurd (newest _ p (orderly.linked o p carried) q current same)
      (Nat.not_le.mpr younger)

/-- What is queued and has the base of a carried page is older. -/
theorem older_of_queued {o : Owner n} {p q : PageId} (carried : (c.role o).carried = some p)
    (queued : q ∈ c.pipe) (same : c.base q = c.base p) : q < p := by
  have le := newest _ p (orderly.linked o p carried) q (inv.live q queued).1 same
  refine Nat.lt_of_le_of_ne le ?_
  rintro rfl
  exact (inv.outside_of_carried carried).2 queued

omit newest in
/-- A carried page is pushed: what is queued before it and has its base is older, and nothing
of its base is queued after it. -/
theorem push {o : Owner n} {p : PageId} {e : Enqueue} {early late : List PageId}
    (pushes : c.role o = .pushing p e) (perm : (early ++ late).Perm (p :: (c.early ++ c.late)))
    (sorted : (c.tagged ++ (c.unlinked.toList ++ early ++ late)).Pairwise
      fun p q => c.base p = c.base q → p < q)
    (fewer : ∀ q ∈ late, q ∈ c.late ∨ q = p) :
    Orderly { c with role := update c.role o (.holds p false), early := early, late := late } := by
  have carried : (c.role o).carried = some p := by rw [pushes]; rfl
  have grows : ∀ q, q ∈ early ++ late ↔ q = p ∨ q ∈ c.early ++ c.late := fun q => by
    rw [perm.mem_iff, List.mem_cons]
  have queued : ∀ q, q ∈ c.tagged ++ (c.unlinked.toList ++ early ++ late) ↔
      q = p ∨ q ∈ c.pipe := by
    intro q
    have split := grows q
    simp only [pipe, waiting, List.mem_append] at split ⊢
    grind
  refine
    { present := fun q alive => ?_
      linked := fun o' q carries => ?_
      sorted := sorted
      straight := fun o' q e' other straight r among => ?_
      handed := fun o' q points => ?_
      retired := orderly.retired }
  · rcases orderly.present q alive with before | ⟨o', carries⟩
    · exact .inl ((queued q).mpr (.inr before))
    · by_cases mine : o' = o
      · subst mine
        obtain rfl : p = q := Option.some.inj (carried.symm.trans carries)
        exact .inl ((queued p).mpr (.inl rfl))
      · exact .inr ⟨o', by simpa [mine] using carries⟩
  · by_cases mine : o' = o
    · subst mine
      simp [Role.carried] at carries
    · exact orderly.linked o' q (by simpa [mine] using carries)
  · by_cases mine : o' = o
    · subst mine
      simp at other
    · have theirs : c.role o' = .pushing q e' := by simpa [mine] using other
      rcases fewer r among with before | rfl
      · exact orderly.straight o' q e' theirs straight r before
      · -- Two carried pages of one base are both in the index, hence the same page.
        intro (same : c.base r = c.base q)
        have carries : (c.role o').carried = some q := by rw [theirs]; rfl
        have first := orderly.linked o r carried
        have second := orderly.linked o' q carries
        rw [same] at first
        obtain rfl := inv.single _ r first q second same
        exact mine (inv.same_holder (Role.held_of_carried carries) (Role.held_of_carried carried))
  · by_cases mine : o' = o
    · subst mine
      simp at points
    · exact (orderly.handed o' q (by simpa [mine] using points)).imp_left
        fun before => (queued q).mpr (.inr before)

theorem pushPartial {o : Owner n} {p : PageId} {e : Enqueue} (pushes : c.role o = .pushing p e) :
    Orderly { c with role := update c.role o (.holds p false), late := c.late ++ [p] } := by
  have carried : (c.role o).carried = some p := by rw [pushes]; rfl
  refine orderly.push inv pushes ?_ ?_ fun q among => by simpa using among
  · rw [← List.append_assoc]
    exact List.perm_append_singleton _ _
  · have whole : c.tagged ++ (c.unlinked.toList ++ c.early ++ (c.late ++ [p])) = c.pipe ++ [p] := by
      simp [pipe, waiting]
    rw [whole]
    refine List.pairwise_append.mpr ⟨orderly.sorted, List.pairwise_singleton _ _, ?_⟩
    intro q queued r last same
    obtain rfl := List.mem_singleton.mp last
    exact orderly.older_of_queued inv newest carried queued same

theorem pushFull {o : Owner n} {p : PageId} {e : Enqueue} (pushes : c.role o = .pushing p e)
    (straight : e.isFull = true) :
    Orderly { c with role := update c.role o (.holds p false), early := c.early ++ [p] } := by
  have carried : (c.role o).carried = some p := by rw [pushes]; rfl
  refine orderly.push inv pushes ?_ ?_ fun q among => .inl among
  · rw [List.append_assoc]
    exact List.perm_middle
  · have whole : c.tagged ++ (c.unlinked.toList ++ (c.early ++ [p]) ++ c.late) =
        (c.tagged ++ c.unlinked.toList ++ c.early) ++ ([p] ++ c.late) := by simp
    have sorted := orderly.sorted
    rw [show c.pipe = (c.tagged ++ c.unlinked.toList ++ c.early) ++ c.late by
      simp [pipe, waiting]] at sorted
    obtain ⟨front, back, across⟩ := List.pairwise_append.mp sorted
    rw [whole]
    refine List.pairwise_append.mpr ⟨front, List.pairwise_cons.mpr ⟨?_, back⟩, ?_⟩
    · exact fun q among same => absurd same.symm (orderly.straight o p e pushes straight q among)
    · intro q before r after same
      rcases List.mem_cons.mp after with rfl | late
      · exact orderly.older_of_queued inv newest carried (by
          simp only [pipe, waiting, List.mem_append] at before ⊢
          grind) same
      · exact across q before r late same

omit newest in
theorem create {t : Fin n} {base address : Nat} (idle : c.role (.fg t) = .none) :
    Orderly
      { c with
        role := update c.role (.fg t) (.holds c.created true)
        lock := update c.lock c.created (some (.fg t))
        created := c.created + 1
        buckets := update c.buckets (piHash base) (c.created :: c.buckets (piHash base))
        addr := update c.addr c.created address
        base := update c.base c.created base
        tag := update c.tag c.created .opened
        entries := update c.entries c.created []
        inQueue := update c.inQueue c.created false
        detached := update c.detached c.created false } := by
  -- The new page is in no queue, so the order of the queued ones is as it was.
  have kept : ∀ {p}, p < c.created → update c.base c.created base p = c.base p := fun old =>
    Function.update_of_ne (Nat.ne_of_lt old) _ _
  have queued : ∀ {p}, p ∈ c.pipe → p < c.created := fun member => (inv.live _ member).1
  have late : ∀ {p}, p ∈ c.late → p ∈ c.pipe := fun member =>
    mem_pipe_of_waiting (List.mem_append_right _ member)
  have others : ∀ {o : Owner n} {p}, (c.role o).carried = some p → o ≠ .fg t := by
    rintro o p carried rfl
    simp [idle, Role.carried] at carried
  refine
    { present := fun p alive => ?_
      linked := fun o p carried => ?_
      sorted := ?_
      straight := fun o p e pushes straight q among => ?_
      handed := fun o p points => ?_
      retired := fun p freed q younger same => ?_ }
  · by_cases new : p = c.created
    · exact .inr ⟨.fg t, by simp [new, Role.carried]⟩
    · have old : p < c.created := Nat.lt_of_le_of_ne (Nat.lt_succ_iff.mp alive.1) new
      rcases orderly.present p ⟨old, alive.2⟩ with before | ⟨o, carried⟩
      · exact .inl before
      · exact .inr ⟨o, by simpa [others carried] using carried⟩
  · by_cases mine : o = .fg t
    · subst mine
      obtain rfl : c.created = p := by simpa [Role.carried] using carried
      simp
    · have carried : (c.role o).carried = some p := by simpa [mine] using carried
      dsimp only
      rw [kept (inv.outside_of_carried carried).1.1, mem_update_cons]
      exact .inr (orderly.linked o p carried)
  · refine orderly.sorted.imp_of_mem fun {p q} first second before same => before ?_
    dsimp only at same
    rwa [kept (queued first), kept (queued second)] at same
  · by_cases mine : o = .fg t
    · subst mine
      simp at pushes
    · have pushes : c.role o = .pushing p e := by simpa [mine] using pushes
      have old := (inv.outside_of_carried (o := o) (p := p) (by rw [pushes]; rfl)).1.1
      dsimp only
      rw [kept old, kept (queued (late among))]
      exact orderly.straight o p e pushes straight q among
  · by_cases mine : o = .fg t
    · subst mine
      simp at points
    · exact orderly.handed o p (by simpa [mine] using points)
  · have old := inv.unborn p freed
    dsimp only at same
    rw [kept old, kept (lt_trans younger old)] at same
    exact orderly.retired p freed q younger same

omit inv newest in
/-- Unlinking a page that nobody carries. -/
theorem unlink (base address : Nat)
    (spared : ∀ o q, (c.role o).carried = some q → c.addr q ≠ address) :
    Orderly { c with buckets := c.unlinkAddr base address } := by
  refine { orderly with linked := fun o q carried => ?_ }
  have before := orderly.linked o q carried
  by_cases same : piHash (c.base q) = piHash base
  · simp only [unlinkAddr, same, Function.update_self]
    exact (List.mem_eraseP_of_neg (by simpa using spared o q carried)).mpr (same ▸ before)
  · simpa [unlinkAddr, same] using before

/-- Freeing the first page of the pipe. -/
theorem free {p : PageId} {rest : List PageId} (front : c.tagged = p :: rest) :
    Orderly { c with freed := update c.freed p true, tagged := rest } := by
  have whole : c.pipe = p :: (rest ++ c.waiting) := by rw [pipe, front]; rfl
  have sorted := orderly.sorted
  rw [whole] at sorted
  have first : p ∈ c.pipe := by rw [whole]; exact List.mem_cons_self
  have keeps : ∀ q, q ∈ c.pipe → q = p ∨ q ∈ rest ++ c.waiting := fun q member => by
    rwa [whole, List.mem_cons] at member
  refine { orderly with
    present := fun q alive => ?_
    sorted := sorted.of_cons
    handed := fun o q points => ?_
    retired := fun r freed q younger same => ?_ }
  · have differs : q ≠ p := by
      rintro rfl
      simp [Alive] at alive
    have before : c.Alive q := ⟨alive.1, by simpa [differs] using alive.2⟩
    exact (orderly.present q before).imp_left fun queued => (keeps q queued).resolve_left differs
  · rcases orderly.handed o q points with queued | freed
    · rcases keeps q queued with rfl | later
      · exact .inr (by simp)
      · exact .inl later
    · exact .inr (by by_cases same : q = p <;> simp [same, freed])
  · by_cases freedNow : q = p
    · simp [freedNow]
    · dsimp only
      rw [Function.update_of_ne freedNow]
      by_cases gone : r = p
      · -- An older live page of the base would be queued in front of `p`.
        subst gone
        by_contra alive
        have alive : c.Alive q := ⟨lt_trans younger (inv.live r first).1, by simpa using alive⟩
        have queued := orderly.queued_of_older newest alive younger (inv.live r first).1 same.symm
        have later := (keeps q queued).resolve_left freedNow
        exact absurd ((List.pairwise_cons.mp sorted).1 q later same.symm) (Nat.not_lt.mpr younger.le)
      · exact orderly.retired r (by simpa [gone] using freed) q younger same

include pointed

theorem step (step : c.Step c') (regular : c.Regular c') : c'.Orderly := by
  cases step with
  | want idle | acquire idle =>
    exact { orderly.reassign (by rw [idle]; rfl) (by simp) (by simp) with }
  | create idle => exact orderly.create inv idle
  | settle | fill | latch => exact { orderly with }
  | @enlist t p fresh e tag entries holds open_ absent =>
    -- A page that is not queued is one its holder created.
    have isFresh : fresh = true := by
      by_contra old
      have queued : p ∈ c.pipe := orderly.queued_of_held inv (o := .fg t) (by rw [holds]; rfl)
        (by cases fresh <;> simp_all [Role.carried])
      have untagged := (inv.alive_of_held (o := .fg t) (p := p) (by rw [holds]; rfl)).2
      have waits := (List.mem_append.mp queued).resolve_left untagged
      simp [(inv.queued p).mpr (.inl waits)] at absent
    subst isFresh
    refine { orderly.reassign (o := .fg t) (r := .pushing p e) (by rw [holds]; rfl) ?_ (by simp) with }
    rintro _ _ ⟨⟩ straight
    exact regular.straight t p e holds (by simp) straight
  | @sweep p bucket e tag idle free member absent open_ =>
    rcases orderly.present p (inv.indexed bucket p member).1 with queued | ⟨o, carried⟩
    · exact absurd queued absent
    · exact absurd (Role.held_of_carried carried) (inv.locked.not_held_of_free free o)
  | advance pushes kind =>
    refine orderly.reassign (by rw [pushes]; rfl) ?_ (by simp)
    rintro _ _ ⟨⟩ straight
    exact orderly.straight _ _ _ pushes (kind ▸ straight)
  | pushPartial pushes => exact orderly.pushPartial inv newest pushes
  | pushFull pushes kind => exact orderly.pushFull inv newest pushes kind
  | @release o p r holds next =>
    refine { orderly.reassign (o := o) (r := r) ?_ ?_ ?_ with }
    · rcases next with rfl | rfl <;> rw [holds] <;> rfl
    · rcases next with rfl | rfl <;> simp
    · rcases next with rfl | rfl
      · simp
      · rintro _ ⟨⟩
        exact .inl (orderly.queued_of_held inv (o := o) (by rw [holds]; rfl)
          (by rw [holds]; simp [Role.carried]))
  | @abandon t p base points free =>
    have cut := orderly.unlink base (c.addr p) fun o q carried same => by
      obtain ⟨alive, outside⟩ := inv.outside_of_carried carried
      obtain rfl := pointed _ p points q alive same
      rcases orderly.handed _ q points with queued | freed
      · exact outside queued
      · simp [alive.2] at freed
    exact cut.reassign (by rw [points]; rfl) (by simp) (by simp)
  | drop => simpa using regular.clean
  | @forward p rest front =>
    refine orderly.rearrange _ _ _ _ ?_ fun q among => by
      rw [front]
      exact List.mem_cons_of_mem _ among
    simp [pipe, waiting, front]
  | @unlink p rest none_ front free =>
    have queued : p ∈ c.pipe := mem_pipe_of_waiting (by simp [waiting, front])
    have cut := orderly.unlink (c.base p) (c.addr p) fun o q carried same => by
      obtain ⟨alive, outside⟩ := inv.outside_of_carried carried
      obtain rfl := inv.address q p alive (inv.live p queued) same
      exact outside queued
    have moved := orderly.rearrange c.tagged (some p) rest c.late
      (by simp [pipe, waiting, front, none_]) fun _ among => among
    exact { moved with linked := cut.linked }
  | @tag p front free =>
    have moved := orderly.rearrange (c.tagged ++ [p]) none c.early c.late
      (by simp [pipe, waiting, front]) fun _ among => among
    exact { moved with }
  | free front => exact orderly.free inv newest front
  | @destroy resident idle drained all =>
    -- Nothing is queued and nobody carries a page, so nothing is alive.
    have dead : ∀ p, ¬ c.Alive p := by
      intro p alive
      rcases orderly.present p alive with queued | ⟨o, carried⟩
      · simp [drained] at queued
      · simp [idle, Role.carried] at carried
    have same : ∀ p, (c.freed p || resident.contains p) = c.freed p := by
      intro p
      cases among : resident.contains p with
      | false => simp
      | true =>
        obtain ⟨b, linked⟩ := (all p).mp (by simpa using among)
        exact absurd (inv.indexed b p linked).1 (dead p)
    refine
      { present := fun p alive => absurd ⟨alive.1, (same p).symm.trans alive.2⟩ (dead p)
        linked := fun o p carried => ?_
        sorted := orderly.sorted
        straight := orderly.straight
        handed := fun o p points => ?_
        retired := fun p freed q younger base => ?_ }
    · simp [idle, Role.carried] at carried
    · simp [idle] at points
    · dsimp only at freed ⊢
      rw [same] at freed ⊢
      exact orderly.retired p freed q younger base

end Orderly

end Custody

end NoxDB

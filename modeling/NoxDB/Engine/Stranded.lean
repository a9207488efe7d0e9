import NoxDB.Engine.Order
import NoxDB.Engine.Sound

/-! # Stranded pages and the level

A live page is stranded when it is in no queue, in the hands of no stage, and no thread
is about to push it.  Pages strand in one way only: Stage-1 drops a page whose holes it
could not read.  The level that the watermark keeps counts stranded pages as well; it is
the number of live pages, whatever happens.
-/

namespace NoxDB

open Function (update)
open Library.Runs

variable {n : Nat}

namespace Custody

variable {c c' : Custody n} {p : PageId}

structure Stranded (c : Custody n) (p : PageId) : Prop where
  alive : c.Alive p
  outside : p ∉ c.pipe
  alone : ∀ o, (c.role o).carried ≠ some p

/-- Who carries a page and nothing else about roles matters. -/
theorem Stranded.of_roles (stranded : c'.Stranded p) (created : c'.created = c.created)
    (freed : c'.freed = c.freed) (pipe : p ∈ c.pipe → p ∈ c'.pipe)
    (carried : ∀ o, (c.role o).carried = some p → ∃ o', (c'.role o').carried = some p) :
    c.Stranded p where
  alive := by simpa only [Alive, created, freed] using stranded.alive
  outside := fun queued => stranded.outside (pipe queued)
  alone := fun o carries => by
    obtain ⟨o', carries'⟩ := carried o carries
    exact stranded.alone o' carries'

theorem carried_update {role : Owner n → Role} {o : Owner n} {r : Role}
    (keeps : (role o).carried = some p → r.carried = some p) (o' : Owner n)
    (carries : (role o').carried = some p) : ∃ o'', (update role o r o'').carried = some p := by
  by_cases same : o' = o
  · subst same
    exact ⟨o', by simpa using keeps carries⟩
  · exact ⟨o', by simpa [same] using carries⟩

/-- A page strands when Stage-1 drops it: `in_queue` is cleared and an error is latched. -/
theorem Step.stranded (inv : c.Ownership) (step : c.Step c') (stranded : c'.Stranded p) :
    c.Stranded p ∨ c.inQueue p = true ∧ c'.inQueue p = false ∧ c'.failed = true := by
  have roles : ∀ {o : Owner n} {r : Role}, ((c.role o).carried = some p → r.carried = some p) →
      ∀ o', (c.role o').carried = some p → ∃ o'', (update c.role o r o'').carried = some p :=
    carried_update
  cases step with
  | want idle | acquire idle | abandon idle =>
    exact .inl (stranded.of_roles rfl rfl id (roles (by simp [idle, Role.carried])))
  | release holds =>
    exact .inl (stranded.of_roles rfl rfl id (roles (by simp [holds, Role.carried])))
  | advance pushes =>
    exact .inl (stranded.of_roles rfl rfl id (roles (by simp [pushes, Role.carried])))
  | settle | fill | latch => exact .inl (stranded.of_roles rfl rfl id fun o carries => ⟨o, carries⟩)
  | @create t base address idle =>
    -- The new page is carried by its creator.
    have old : p ≠ c.created := by
      rintro rfl
      exact stranded.alone (.fg t) (by simp [Role.carried])
    refine .inl ⟨⟨Nat.lt_of_le_of_ne (Nat.lt_succ_iff.mp stranded.alive.1) old, stranded.alive.2⟩,
      stranded.outside, fun o carries => ?_⟩
    obtain ⟨o', carries'⟩ := roles (o := .fg t) (r := .holds c.created true)
      (by simp [idle, Role.carried]) o carries
    exact stranded.alone o' carries'
  | @enlist t q fresh e tag entries holds =>
    refine .inl (stranded.of_roles rfl rfl id (roles ?_))
    rw [holds]
    cases fresh <;> simp [Role.carried]
  | @sweep q bucket e tag idle =>
    exact .inl (stranded.of_roles rfl rfl id (roles (by simp [idle, Role.carried])))
  | @pushPartial o q e pushes | @pushFull o q e pushes =>
    have queued : p ≠ q := by
      rintro rfl
      exact stranded.outside (by simp [pipe, waiting])
    refine .inl (stranded.of_roles rfl rfl (fun member => ?_) (roles ?_))
    · simp only [pipe, waiting, List.mem_append] at member ⊢
      grind
    · rw [pushes]
      simp [Role.carried, Ne.symm queued]
  | @drop q rest front free =>
    by_cases same : p = q
    · subst same
      have queued : c.inQueue p = true := (inv.queued p).mpr (.inl (by simp [waiting, front]))
      exact .inr ⟨queued, by simp, rfl⟩
    · refine .inl (stranded.of_roles rfl rfl (fun member => ?_) fun o carries => ⟨o, carries⟩)
      simpa [pipe, waiting, front, same] using member
  | @forward q rest front =>
    refine .inl (stranded.of_roles rfl rfl (fun member => ?_) fun o carries => ⟨o, carries⟩)
    simpa [pipe, waiting, front] using member
  | @unlink q rest none_ front =>
    refine .inl (stranded.of_roles rfl rfl (fun member => ?_) fun o carries => ⟨o, carries⟩)
    simpa [pipe, waiting, front, none_] using member
  | @tag q front =>
    refine .inl (stranded.of_roles rfl rfl (fun member => ?_) fun o carries => ⟨o, carries⟩)
    simpa [pipe, waiting, front, or_assoc] using member
  | @free q rest front =>
    have alive : p ≠ q := by
      rintro rfl
      simpa using stranded.alive.2
    refine .inl ⟨⟨stranded.alive.1, by simpa [alive] using stranded.alive.2⟩, fun queued => ?_,
      stranded.alone⟩
    exact stranded.outside (by simpa [pipe, waiting, front, alive] using queued)
  | @destroy resident =>
    refine .inl ⟨⟨stranded.alive.1, ?_⟩, stranded.outside, stranded.alone⟩
    exact (Bool.or_eq_false_iff.mp stranded.alive.2).1

end Custody

variable {cfg : Config} {file : File} {scratch : Nat → UInt8} {s s' : Engine n} {label : Label n}

/-! ## The step that strands a page -/

/-- The page whose holes Stage-1 could not read. -/
def Stage1.dropping : Stage1 → Option PageId
  | .finish p false => some p
  | _ => none

/-- What a step does to the tag and to `in_queue` of page `p`. -/
inductive Touch (cfg : Config) (s : Engine n) (label : Label n) (s' : Engine n) (p : PageId) :
    Prop where
  | same (tag : (s'.pages p).hdr.tag = (s.pages p).hdr.tag)
      (flag : (s'.pages p).inQueue = (s.pages p).inQueue)
  | born (new : p = s.created) (tag : (s'.pages p).hdr.tag = .opened)
      (flag : (s'.pages p).inQueue = false)
  | decide {t call done created decision} (position : s.fg t = .scrap call done (.held p created))
      (way : Decided cfg (s.pages p) created (call.cells done) (call.intra done) (call.chunk done)
        decision)
      (page : s'.pages p = decision.page)
  | fill (free : s.lock p = none) (tag : (s'.pages p).hdr.tag = .full)
      (flag : (s'.pages p).inQueue = (s.pages p).inQueue) (entering : p ∈ s'.s1.entering)
  | drop (free : s.lock p = none) (stage : label = .stage1) (dropping : s.s1.dropping = some p)
      (tag : (s'.pages p).hdr.tag = (s.pages p).hdr.tag) (flag : (s'.pages p).inQueue = false)
  | tag (free : s.lock p = none) (flushing : (s'.pages p).hdr.tag = .flushing)
      (flag : (s'.pages p).inQueue = false) (tagged : p ∈ s'.s2.tagged)
  | sweep {err bucket} (free : s.lock p = none) (position : s.closer = .sweep err bucket (some p))
      (page : s'.pages p = (Engine.enqueueOne (s.pages p)).1)

theorem touch (move : Move cfg s label s') (p : PageId) : Touch cfg s label s' p := by
  cases move with
  | fg move =>
    cases move with
    | @alloc t call done address zone =>
      by_cases new : p = s.created
      · subst new
        exact .born rfl (by simp [scrapPageAlloc]) (by simp [scrapPageAlloc])
      · exact .same (by simp [new]) (by simp [new])
    | @decide t call done q created position decision decided =>
      by_cases same : p = q
      · subst same
        exact .decide position (.of_eq decided) (by simp)
      · exact .same (by simp [same]) (by simp [same])
    | _ => exact .same rfl rfl
  | stage1 move =>
    cases move with
    | @fill q position free page filled =>
      by_cases same : p = q
      · subst same
        exact .fill free (by simp) (by simp [filled, scrapPageApplyHoles]) (by simp [Stage1.entering])
      · exact .same (by simp [same]) (by simp [same])
    | @drop q position free =>
      by_cases same : p = q
      · subst same
        exact .drop free rfl (by rw [position]; rfl) (by simp) (by simp)
      · exact .same (by simp [same]) (by simp [same])
    | _ => exact .same rfl rfl
  | stage2 move =>
    cases move with
    -- Unlinking marks the page as detached and leaves its tag and its flag.
    | @unlink done q todo position linked free =>
      by_cases same : p = q
      · subst same
        exact .same (by simp) (by simp)
      · exact .same (by simp [same]) (by simp [same])
    | @tag done q todo position free =>
      by_cases same : p = q
      · subst same
        exact .tag free (by simp) (by simp) (by simp [Stage2.tagged])
      · exact .same (by simp [same]) (by simp [same])
    | _ => exact .same rfl rfl
  | closer move =>
    cases move with
    | @sweepLock err bucket q position alive free page enqueue chosen =>
      by_cases same : p = q
      · subst same
        have chosen : page = (Engine.enqueueOne (s.pages p)).1 := congrArg Prod.fst chosen
        exact .sweep free position (by simp [chosen])
      · exact .same (by simp [same]) (by simp [same])
    | _ => exact .same rfl rfl

/-- `in_queue` of a page is cleared by Stage-1 when it drops the page and by Stage-2 when it
tags it. -/
theorem inQueue_cleared (move : Move cfg s label s') {p : PageId} (old : p < s.created)
    (before : (s.pages p).inQueue = true) (after : (s'.pages p).inQueue = false) :
    label = .stage1 ∧ s.s1.dropping = some p ∨ p ∈ s'.s2.tagged := by
  cases touch move p with
  | same _ flag | fill _ _ flag => simp [flag, before] at after
  | born new => exact absurd new (Nat.ne_of_lt old)
  | @decide t call done created decision position way page =>
    have kept : decision.page.inQueue = true := by
      cases pushes : decision.enqueue with
      | some e => exact (way.inQueue_of_pushes pushes).2
      | none => exact (way.inQueue_of_stays pushes).trans before
    simp [page, kept] at after
  | drop _ stage dropping => exact .inl ⟨stage, dropping⟩
  | tag _ _ _ tagged => exact .inr tagged
  | sweep free position page =>
    have kept : (Engine.enqueueOne (s.pages p)).1.inQueue = true := by
      simp only [Engine.enqueueOne, enqueueFull, enqueuePartial, before, if_true]
      split
      · rfl
      · exact before
    simp [page, kept] at after

/-- A page strands only when Stage-1 drops it. -/
theorem stranded_step (sound : Sound cfg s) (move : Move cfg s label s') {p : PageId}
    (stranded : s'.custody.Stranded p) :
    s.custody.Stranded p ∨ label = .stage1 ∧ s.s1.dropping = some p := by
  rcases sound.refines move with same | step
  · exact .inl (same ▸ stranded)
  · rcases step.stranded sound.owned stranded with before | ⟨queued, cleared, -⟩
    · exact .inl before
    · have current : p < s.created := by
        rcases (sound.owned.queued p).mp queued with waits | ⟨o, e, pushes⟩
        · exact (sound.owned.live p (Custody.mem_pipe_of_waiting waits)).1
        · exact (sound.owned.alive_of_held (o := o) (by rw [pushes]; rfl)).1.1
      rcases inQueue_cleared move current queued cleared with dropped | tagged
      · exact .inr dropped
      · exact absurd (Custody.mem_pipe_of_tagged tagged) stranded.outside

/-- As long as no error is latched, nothing is stranded. -/
theorem unstranded_step (sound : Sound cfg s) (move : Move cfg s label s')
    (present : ∀ p, ¬ s.custody.Stranded p) (clean : s'.ioErr = false) (p : PageId) :
    ¬ s'.custody.Stranded p := by
  intro stranded
  rcases sound.refines move with same | step
  · exact present p (same ▸ stranded)
  · rcases step.stranded sound.owned stranded with before | ⟨-, -, failed⟩
    · exact present p before
    · exact absurd failed (by simpa [Engine.custody] using clean)

/-! ## The level -/

/-- The pages allocated and not freed. -/
def Engine.alive (s : Engine n) : List PageId := (List.range s.created).filter fun p => !s.freed p

theorem mem_alive {p : PageId} : p ∈ s.alive ↔ s.custody.Alive p := by
  simp [Engine.alive, Custody.Alive, Engine.custody]

theorem nodup_alive (s : Engine n) : s.alive.Nodup := List.nodup_range.filter _

/-- What is alive splits into what dies and what stays. -/
theorem alive_perm {dying : List PageId} (nodup : dying.Nodup)
    (split : ∀ p, s.custody.Alive p ↔ p ∈ dying ∨ s'.custody.Alive p)
    (apart : ∀ p ∈ dying, ¬ s'.custody.Alive p) : s.alive.Perm (dying ++ s'.alive) := by
  apply (List.perm_ext_iff_of_nodup (nodup_alive s) _).mpr
  · intro p
    rw [mem_alive, List.mem_append, mem_alive]
    exact split p
  · refine nodup.append (nodup_alive s') fun p member stays => apart p member (mem_alive.mp stays)

/-- `g_live` is the number of live pages, on top of what it was when the engine was opened. -/
def Level (before : Nat) (s : Engine n) : Prop := s.watermark.live = before + s.alive.length

namespace Level

variable {before : Nat}

theorem keep (level : Level before s) (live : s'.watermark.live = s.watermark.live)
    (created : s'.created = s.created) (freed : s'.freed = s.freed) : Level before s' := by
  rw [Level, live, Engine.alive, created, freed]
  exact level

theorem create (level : Level before s) (owned : s.custody.Ownership)
    (live : s'.watermark.live = s.watermark.live + 1) (created : s'.created = s.created + 1)
    (freed : s'.freed = s.freed) : Level before s' := by
  have unborn : s.freed s.created = false := by
    cases gone : s.freed s.created with
    | false => rfl
    | true => exact absurd (owned.unborn _ gone) (lt_irrefl _)
  have grown : s'.alive = s.alive ++ [s.created] := by
    rw [Engine.alive, created, freed, List.range_succ, List.filter_append]
    simp [Engine.alive, unborn]
  rw [Level, live, grown, level, List.length_append]
  rfl

theorem remove (level : Level before s) (dying : List PageId)
    (live : s'.watermark.live = s.watermark.live - dying.length)
    (perm : s.alive.Perm (dying ++ s'.alive)) : Level before s' := by
  have count := perm.length_eq
  rw [List.length_append] at count
  rw [Level, live, level]
  omega

theorem alive_free (owned : s.custody.Ownership) {p : PageId}
    {batch : List PageId} (position : s.s2 = .freeing (p :: batch)) :
    s.alive.Perm ([p] ++ Engine.alive { s with freed := update s.freed p true }) := by
  have alive : s.custody.Alive p := owned.live p (Custody.mem_pipe_of_tagged (by
    simp [Engine.custody, position, Stage2.tagged]))
  refine alive_perm (List.nodup_singleton p) (fun q => ?_) ?_
  · by_cases same : q = p
    · subst same
      simpa using alive
    · simp [Custody.Alive, Engine.custody, same]
  · simp [Custody.Alive, Engine.custody]

theorem step (level : Level before s) (sound : Sound cfg s) (move : Move cfg s label s') :
    Level before s' := by
  cases move with
  | fg move =>
    cases move with
    | alloc => exact level.create sound.owned rfl rfl rfl
    | _ => exact level.keep rfl rfl rfl
  | stage1 move => cases move <;> exact level.keep rfl rfl rfl
  | stage2 move =>
    cases move with
    | @free p batch position => exact level.remove [p] rfl (alive_free sound.owned position)
    | _ => exact level.keep rfl rfl rfl
  | closer move =>
    cases move with
    | @destroy err position =>
      refine level.remove s.resident rfl ?_
      refine alive_perm (nodup_resident sound.owned) (fun p => ?_) fun p member alive => ?_
      · have linked : p ∈ s.resident → s.custody.Alive p := fun member => by
          obtain ⟨b, linked⟩ := (mem_resident sound.owned).mp member
          exact (sound.owned.indexed b p linked).1
        by_cases among : p ∈ s.resident
        · simp [among, linked among]
        · simp [among, Custody.Alive, Engine.custody]
      · simp [Custody.Alive, Engine.custody, member] at alive
    | _ => exact level.keep rfl rfl rfl

end Level

end NoxDB

import NoxDB.Engine.Sound

/-! # Single membership and single free

Before the walk of `nox_close` a page is in at most one queue, at most once, `in_queue`
tells where it is, and only Stage-2 frees pages, once each and when nobody can reach
them.
-/

namespace NoxDB

open Function (update)
open Library.Runs

variable {n : Nat}

/-- `nox_close` has not started to walk the index. -/
def BeforeSweep (s : Engine n) : Prop :=
  s.closer = .running ∨ s.closer = .disarm ∨ s.closer = .firstDrain

/-- The page a foreground thread holds the lock of or waits for. -/
def ChunkPc.grasped : ChunkPc → Option PageId
  | .lockPage p | .held p _ | .enqueue p _ _ | .unlock p _ => some p
  | _ => none

/-- Thread `t` holds the lock of `p` or waits for it. -/
def Grasps (s : Engine n) (t : Fin n) (p : PageId) : Prop :=
  ∃ call done pc, s.fg t = .scrap call done pc ∧ pc.grasped = some p

/-- Thread `t` holds the lock of `p` and is pushing it. -/
def Pushes (s : Engine n) (t : Fin n) (p : PageId) : Prop :=
  s.lock p = some (.fg t) ∧ ∃ call done e after, s.fg t = .scrap call done (.enqueue p e after)

/-- Stage-1 has popped `p` and not dropped or forwarded it, or Stage-2 has popped it and not
detached it. -/
def StageHolds (s : Engine n) (p : PageId) : Prop :=
  p ∈ s.s1.pages ∨ p ∈ s.s2.kept ∨ s.s2.unlinked = some p

/-- The frees the history records. -/
def Engine.frees (s : Engine n) : List PageId :=
  s.log.filterMap fun
    | .freed p => some p
    | _ => none

variable {cfg : Config} {file : File} {scratch : Nat → UInt8} {s s' : Engine n} {label : Label n}

theorem BeforeSweep.role (before : BeforeSweep s) : s.closer.role = .none := by
  rcases before with closer | closer | closer <;> rw [closer] <;> rfl

theorem beforeSweep_iff : BeforeSweep s ↔ s.closer.phase ≤ 2 := by
  rw [BeforeSweep]
  cases s.closer <;> simp [Closer.phase]

theorem queues_nodup (sound : Sound cfg s) : (s.q1 ++ s.q2).Nodup := by
  have nodup := sound.owned.nodup
  have perm : (s.q1 ++ s.q2).Perm (s.q2 ++ s.q1) := List.perm_append_comm
  refine perm.nodup_iff.mpr (nodup.sublist ?_)
  simp only [Custody.pipe, Custody.waiting, Engine.custody]
  refine List.sublist_append_of_sublist_right ?_
  refine List.Sublist.append ?_ (List.sublist_append_right _ _)
  exact List.sublist_append_of_sublist_right (List.sublist_append_right _ _)

theorem inQueue_iff (sound : Sound cfg s) (before : BeforeSweep s) (p : PageId) :
    (s.pages p).inQueue = true ↔
      p ∈ s.q1 ++ s.q2 ∨ (∃ t, Pushes s t p) ∨ StageHolds s p := by
  have queued : (s.pages p).inQueue = true ↔ _ := sound.owned.queued p
  have pushing : Custody.Pushing s.custody.role p ↔ ∃ t, Pushes s t p := by
    constructor
    · rintro ⟨o, e, pushes⟩
      have locked : s.lock p = some o := (sound.owned.locked p o).mpr (by
        simp only [pushes]; rfl)
      cases o with
      | closer =>
        have idle : s.custody.role .closer = .none := before.role
        simp [idle] at pushes
      | fg t =>
        refine ⟨t, locked, ?_⟩
        have role : (s.fg t).role = .pushing p e := pushes
        cases position : s.fg t with
        | scrap call done pc =>
          cases pc with
          | enqueue q e' after =>
            obtain ⟨rfl, rfl⟩ : q = p ∧ e' = e := by
              simpa [position, Fg.role, ChunkPc.role] using role
            exact ⟨call, done, e', after, rfl⟩
          | _ => simp [position, Fg.role, ChunkPc.role] at role
        | _ => simp [position, Fg.role] at role
    · rintro ⟨t, -, call, done, e, after, position⟩
      exact ⟨.fg t, e, role_at position⟩
  rw [queued, pushing]
  simp only [Custody.waiting, Engine.custody, StageHolds, List.mem_append, Option.mem_toList]
  grind

theorem grasps_untagged (sound : Sound cfg s) {t : Fin n} {p : PageId} (grasps : Grasps s t p) :
    p ∉ s.s2.tagged := by
  obtain ⟨call, done, pc, position, grasped⟩ := grasps
  have role : s.custody.role (.fg t) = pc.role (call.base done) := role_at position
  intro tagged
  cases pc with
  | lockPage q =>
    obtain rfl : q = p := by simpa [ChunkPc.grasped] using grasped
    have rights := sound.owned.rights (.fg t)
    rw [role] at rights
    exact sound.owned.unlinked q (List.mem_append_left _ tagged) _ rights.1
  | held q created | enqueue q e after | unlock q after =>
    obtain rfl : q = p := by simpa [ChunkPc.grasped] using grasped
    exact (sound.owned.alive_of_held (by rw [role]; rfl)).2 tagged
  | _ => simp [ChunkPc.grasped] at grasped

/-! ## Frees -/

theorem frees_chunkEvents (t : Fin n) (p : PageId) (call : Call) (done : Nat) (decision : Decision)
    (log : List (Event n)) :
    ({ s with log := chunkEvents t p call done decision ++ log } : Engine n).frees =
      ({ s with log := log } : Engine n).frees := by
  simp only [Engine.frees, chunkEvents, List.filterMap_append]
  split <;> split <;> split <;> split <;> rfl

/-- A step frees nothing, or Stage-2 frees the first page of its batch, or the index is destroyed
with what is left in it. -/
theorem frees_step (move : Move cfg s label s') :
    s'.frees = s.frees ∧ s'.freed = s.freed ∨
      (label = .stage2 ∧ ∃ p batch, s.s2 = .freeing (p :: batch) ∧ s'.frees = p :: s.frees ∧
        s'.freed = update s.freed p true) ∨
      ∃ err, s.closer = .destroy err ∧ s'.frees = s.resident ++ s.frees ∧
        s'.freed = fun p => s.freed p || s.resident.contains p := by
  cases move with
  | fg move =>
    left
    cases move with
    | decide => exact ⟨frees_chunkEvents _ _ _ _ _ _, rfl⟩
    | detach => exact ⟨by simp [Engine.frees, List.filterMap_map], rfl⟩
    | _ => exact ⟨rfl, rfl⟩
  | stage1 move => exact .inl (by cases move <;> exact ⟨rfl, rfl⟩)
  | closer move =>
    cases move with
    | destroy position =>
      exact .inr (.inr ⟨_, position, by simp [Engine.frees, List.filterMap_map], rfl⟩)
    | _ => exact .inl ⟨rfl, rfl⟩
  | stage2 move =>
    cases move with
    | @free p batch position => exact .inr (.inl ⟨rfl, p, batch, position, rfl, rfl⟩)
    | pwritev => exact .inl ⟨by simp [Engine.frees], rfl⟩
    | _ => exact .inl ⟨rfl, rfl⟩

structure FreeLog (s : Engine n) : Prop where
  nodup : s.frees.Nodup
  freed : ∀ p, p ∈ s.frees ↔ s.freed p = true

theorem FreeLog.step (frees : FreeLog s) (sound : Sound cfg s) (move : Move cfg s label s') :
    FreeLog s' := by
  rcases frees_step move with
    ⟨sameLog, sameFlags⟩ | ⟨-, p, batch, position, log, flags⟩ | ⟨err, position, log, flags⟩
  · exact ⟨sameLog ▸ frees.nodup, sameLog ▸ sameFlags ▸ frees.freed⟩
  · have tagged : p ∈ s.custody.tagged := by simp [Engine.custody, position, Stage2.tagged]
    have alive : s.freed p = false := (sound.owned.live p (Custody.mem_pipe_of_tagged tagged)).2
    refine ⟨?_, fun q => ?_⟩
    · rw [log]
      exact List.nodup_cons.mpr ⟨fun member => by simp [(frees.freed p).mp member] at alive,
        frees.nodup⟩
    · rw [log, flags, List.mem_cons]
      by_cases same : q = p
      · simp [same]
      · simpa [same] using frees.freed q
  · refine ⟨?_, fun q => ?_⟩
    · rw [log]
      refine (nodup_resident sound.owned).append frees.nodup fun p member before => ?_
      -- What is in the index is alive.
      obtain ⟨b, linked⟩ := (mem_resident sound.owned).mp member
      have alive : s.freed p = false := (sound.owned.indexed b p linked).1.2
      simp [(frees.freed p).mp before] at alive
    · rw [log, flags, List.mem_append, frees.freed q]
      simp [or_comm]

theorem freeLog_of_run {condition : Engine n → Label n → Prop}
    (run : Run (Engine.step cfg) condition (Engine.init n cfg file scratch) s) : FreeLog s := by
  have both : Sound cfg s ∧ FreeLog s := by
    apply run.invariant fun s => Sound cfg s ∧ FreeLog s
    · exact ⟨.init cfg file scratch, ⟨List.nodup_nil, by simp [Engine.frees, Engine.init]⟩⟩
    · rintro middle last label ⟨sound, frees⟩ - stepped
      have move := move_of_step stepped
      exact ⟨sound.move move, frees.step sound move⟩
  exact both.2

/-- What a page must be like when it is freed. -/
structure Unreachable (s : Engine n) (p : PageId) : Prop where
  unqueued : p ∉ s.q1 ++ s.q2
  unlinked : ∀ b, p ∉ s.buckets b
  ungrasped : ∀ t, ¬ Grasps s t p

theorem unreachable_of_freeing (sound : Sound cfg s) {p : PageId} {batch : List PageId}
    (position : s.s2 = .freeing (p :: batch)) : Unreachable s p := by
  have tagged : p ∈ s.s2.tagged := by simp [position, Stage2.tagged]
  have disjoint := List.disjoint_of_nodup_append sound.owned.nodup tagged
  refine ⟨fun queued => disjoint ?_, sound.owned.unlinked p (List.mem_append_left _ tagged),
    fun t grasps => grasps_untagged sound grasps tagged⟩
  simp only [Custody.waiting, Engine.custody, List.mem_append] at queued ⊢
  grind

/-- Before the walk of `nox_close`: a page is in the queues at most once, `in_queue` of a live
page says exactly whether it is queued, pushed, or in the hands of a stage that still has it in
custody, no page is freed twice, and a step that frees a page is a step of Stage-2 on a page
that is unreachable. -/
theorem membership_and_free
    (reached : Reachable cfg file scratch s) (before : BeforeSweep s) :
    (s.q1 ++ s.q2).Nodup ∧
    (∀ p < s.created, s.freed p = false →
      ((s.pages p).inQueue = true ↔
        p ∈ s.q1 ++ s.q2 ∨ (∃ t, Pushes s t p) ∨ StageHolds s p)) ∧
    s.frees.Nodup ∧ (∀ p, p ∈ s.frees ↔ s.freed p = true) ∧
    ∀ label s', s.step cfg label = some s' → ∀ p ∈ s'.frees, p ∉ s.frees →
      label = .stage2 ∧ Unreachable s p := by
  have sound := sound_of_run reached
  have frees := freeLog_of_run reached
  refine ⟨queues_nodup sound, fun p _ _ => inQueue_iff sound before p, frees.nodup, frees.freed, ?_⟩
  intro label s' stepped p now notYet
  rcases frees_step (move_of_step stepped) with
    ⟨same, -⟩ | ⟨stage, q, batch, position, log, -⟩ | ⟨err, position, -⟩
  · exact absurd (same ▸ now) notYet
  · obtain rfl : p = q := by simpa [log, notYet] using now
    exact ⟨stage, unreachable_of_freeing sound position⟩
  · have early := beforeSweep_iff.mp before
    simp [position, Closer.phase] at early

/-! ## A small run

One thread writes ten bytes at offset 5 of an empty file. -/

def tinyCall : Call where
  buf := fun i => UInt8.ofNat (i + 1)
  size := 10
  offset := 5
  size_lt := ten_lt_word
  offset_lt := by decide

/-- The call, from its entry to its return; its page goes to Queue-1. -/
def tinyWrite : List (Label 1) :=
  [.call 0 tinyCall, .fg 0, .alloc 0 7 (fun _ => 1), .fg 0, .fg 0, .fg 0, .fg 0]

/-- Stage-1 reads the holes of the page, past the end of the file, and fills them. -/
def tinyFill : List (Label 1) :=
  [.stage1, .stage1, .stage1, .stage1, .pread (.count 0), .stage1, .stage1, .stage1, .stage1]

/-- Stage-2 takes the page out of the index, tags it and writes it. -/
def tinyWriteback : List (Label 1) :=
  [.stage2, .stage2, .stage2, .stage2, .stage2, .stage2, .stage2, .pwritev (.ok zoneSize)]

def emptyFile : File := .ofBytes 0 fun _ => 0

/-- Once Stage-1 has popped the page, `in_queue` is set while both queues are empty. -/
theorem membership_of_popped :
    ∃ s : Engine 1, Reachable .standard emptyFile (fun _ => 0) s ∧ BeforeSweep s ∧
      (s.pages 0).inQueue = true ∧ s.q1 = [] ∧ s.q2 = [] ∧
      (0 ∈ s.q1 ++ s.q2 ∨ (∃ t, Pushes s t 0) ∨ StageHolds s 0) := by
  obtain ⟨s, reached, running, created, alive, queued, first, second⟩ :=
    exists_reachable .standard emptyFile (fun _ => 0) (tinyWrite ++ [.stage1])
      (fun s => s.closer = .running ∧ s.created = 1 ∧ s.freed 0 = false ∧
        (s.pages 0).inQueue = true ∧ s.q1 = [] ∧ s.q2 = []) (by decide +kernel)
  have before : BeforeSweep s := .inl running
  obtain ⟨-, flag, -⟩ := membership_and_free reached before
  exact ⟨s, reached, before, queued, first, second, (flag 0 (by omega) alive).mp queued⟩

end NoxDB

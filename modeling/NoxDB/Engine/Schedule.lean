import NoxDB.Engine.Assembly
import NoxDB.Engine.Order

/-! # Runs in which the pages of a base keep their order

The two conditions on a run under which custody stays orderly, in terms of the engine:
`SafeAddress`, the allocator does not reuse the address of a page that a writer is
still going to detach, and `NoOvertaking`, no writer fills a page it has just created
with one chunk while an older page of its base waits for Stage-1.
-/

namespace NoxDB

open Function (update)
open Library.Runs

variable {n : Nat}

/-- The page that the thread has still to pass to `page_index_detach_if`. -/
def Fg.detaching : Fg → Option PageId
  | .scrap _ _ (.detach p) => some p
  | _ => none

/-- The base of the page that the thread has just created and is about to fill with one chunk. -/
def Fg.bornFull : Fg → Option Nat
  | .scrap call done (.held _ true) =>
    if call.chunk done = zoneSize then some (call.base done) else none
  | _ => none

/-- `scrap_page_alloc` does not return the address of a page that some thread, having found it
sealed or sealed it, has still to detach. -/
def SafeAddress (s : Engine n) : Label n → Prop
  | .alloc _ address _ => ∀ t, ∀ p ∈ (s.fg t).detaching, s.addr p ≠ address
  | _ => True

/-- A writer does not fill a page it has just created with a single chunk while another page of
that base is in Queue-1 or in Stage-1's hand. -/
def NoOvertaking (s : Engine n) : Label n → Prop
  | .fg t => ∀ base ∈ (s.fg t).bornFull, ∀ q ∈ s.s1.pages ++ s.q1, (s.pages q).base ≠ base
  | _ => True

instance (s : Engine n) (label : Label n) : Decidable (SafeAddress s label) :=
  match label with
  | .alloc _ address _ =>
    inferInstanceAs (Decidable (∀ t, ∀ p ∈ (s.fg t).detaching, s.addr p ≠ address))
  | .call _ _ | .fg _ | .oom _ | .pwrite _ _ | .stage1 | .pread _ | .stage2 | .pwritev _ | .close
  | .closer | .closeFd _ => inferInstanceAs (Decidable True)

instance (s : Engine n) (label : Label n) : Decidable (NoOvertaking s label) :=
  match label with
  | .fg t =>
    inferInstanceAs (Decidable (∀ base ∈ (s.fg t).bornFull, ∀ q ∈ s.s1.pages ++ s.q1,
      (s.pages q).base ≠ base))
  | .call _ _ | .alloc _ _ _ | .oom _ | .pwrite _ _ | .stage1 | .pread _ | .stage2 | .pwritev _
  | .close | .closer | .closeFd _ => inferInstanceAs (Decidable True)

/-- The foreground thread that takes the step. -/
def Label.thread : Label n → Option (Fin n)
  | .call t _ | .fg t | .alloc t _ _ | .oom t | .pwrite t _ => some t
  | _ => none

variable {cfg : Config} {file : File} {scratch : Nat → UInt8} {s s' : Engine n} {label : Label n}

/-- A thread stands still while others move. -/
theorem fg_frame (move : Move cfg s label s') {t : Fin n} (other : label.thread ≠ some t) :
    s'.fg t = s.fg t := by
  cases move with
  | fg move =>
    have differs : ∀ {t' : Fin n} {f : Fg}, label.thread = some t' → update s.fg t' f t = s.fg t := by
      intro t' f mine
      have apart : t ≠ t' := by
        rintro rfl
        exact other mine
      exact Function.update_of_ne apart _ _
    cases move with
    | callZero => rfl
    | _ => exact differs rfl
  | stage1 move => cases move <;> rfl
  | stage2 move => cases move <;> rfl
  | closer move => cases move <;> rfl

/-- What a foreground thread does is a move of the foreground. -/
theorem own_move (move : Move cfg s label s') {t : Fin n} (mine : label.thread = some t) :
    FgMove cfg s label s' := by
  cases move with
  | fg move => exact move
  | stage1 move => cases move <;> simp [Label.thread] at mine
  | stage2 move => cases move <;> simp [Label.thread] at mine
  | closer move => cases move <;> simp [Label.thread] at mine

theorem Role.position_of_holds {f : Fg} {p : PageId} (role : f.role = .holds p true) :
    ∃ call done, f = .scrap call done (.held p true) := by
  cases f with
  | scrap call done pc =>
    cases pc with
    | held q created =>
      obtain ⟨rfl, rfl⟩ : q = p ∧ created = true := by simpa [Fg.role, ChunkPc.role] using role
      exact ⟨call, done, rfl⟩
    | _ => simp [Fg.role, ChunkPc.role] at role
  | _ => simp [Fg.role] at role

theorem Role.position_of_points {f : Fg} {p : PageId} (role : f.role = .points p) :
    ∃ call done, f = .scrap call done (.detach p) := by
  cases f with
  | scrap call done pc =>
    cases pc with
    | detach q =>
      obtain rfl : q = p := by simpa [Fg.role, ChunkPc.role] using role
      exact ⟨call, done, rfl⟩
    | _ => simp [Fg.role, ChunkPc.role] at role
  | _ => simp [Fg.role] at role

theorem Closer.role_ne_points (closer : Closer) (p : PageId) : closer.role ≠ .points p := by
  cases closer <;> simp [Closer.role]

/-- A thread that holds a page it created moves by its critical section only. -/
theorem decide_of_held (move : Move cfg s label s') {t : Fin n} {call : Call} {done : Nat}
    {p : PageId} {created : Bool} (position : s.fg t = .scrap call done (.held p created)) :
    s'.fg t = s.fg t ∨ label = .fg t ∧ ∃ decision,
      Decided cfg (s.pages p) created (call.cells done) (call.intra done) (call.chunk done) decision ∧
      s'.fg t = .scrap call done (decision.next p) ∧ s'.pages = update s.pages p decision.page := by
  by_cases mine : label.thread = some t
  · right
    cases own_move move mine with
    | @decide t' call' done' p' created' position' decision decided =>
      obtain rfl : t' = t := by simpa [Label.thread] using mine
      obtain ⟨rfl, rfl, rfl, rfl⟩ : call' = call ∧ done' = done ∧ p' = p ∧ created' = created := by
        simpa using position'.symm.trans position
      exact ⟨rfl, decision, .of_eq decided, by simp, rfl⟩
    | callZero position' | callDirect position' | callScrap position' | gatePass position'
    | gatePark position' | parkedPass position' | lookupFound position' | alloc position'
    | oomPage position' | oomDirect position' | lockPage position' | partialInc position'
    | partialPush position' | fullInc position' | fullEnter position' | fullPush position'
    | unlockMore position' | unlockDone position' | unlockRetry position' | detach position'
    | pwrite position' =>
      obtain rfl := Option.some.inj mine
      simp [position'] at position
  · exact .inl (fg_frame move mine)

/-- A page filled by the first merge into it was filled by one chunk. -/
theorem Decided.whole {page : ScrapPage Cell} {created : Bool} {cells : Nat → Cell}
    {intra len : Nat} {decision : Decision}
    (way : Decided cfg page created cells intra len decision)
    (wellFormed : page.WellFormed cfg.maxEntries) (positive : 0 < len)
    (room : intra + len ≤ zoneSize) (empty : page.hdr.entries = []) {e : Enqueue}
    (pushes : decision.enqueue = some e) (straight : e.isFull = true) : len = zoneSize := by
  have full := way.isFull_of_pushes pushes straight
  rw [scrapPageIsFull_iff (way.wellFormed wellFormed positive room)] at full
  have blank : ∀ x, ¬ page.Covered x := by simp [ScrapPage.Covered, empty]
  have first := (way.covered wellFormed positive 0).mp (full 0 (by decide))
  have last := (way.covered wellFormed positive (zoneSize - 1)).mp (full _ (by decide))
  have low := (first.resolve_left (blank _)).2
  have high := (last.resolve_left (blank _)).2
  simp only [zoneSize] at *
  omega

/-! ## The conditions in terms of custody -/

theorem fenced_of_safe (move : Move cfg s label s') (safe : SafeAddress s label) :
    s.custody.Fenced s'.custody := by
  intro o p points q old current
  cases o with
  | closer => exact absurd points (s.closer.role_ne_points p)
  | fg t =>
    obtain ⟨call, done, position⟩ := Role.position_of_points points
    have same : s'.created = s.created → s'.custody.addr q ≠ s.custody.addr p := fun same => by
      have current : q < s'.created := current
      rw [same] at current
      exact absurd current (Nat.not_lt.mpr old)
    cases move with
    | fg move =>
      cases move with
      | @alloc t' call' done' address zone =>
        obtain rfl : q = s.created := Nat.le_antisymm (Nat.lt_succ_iff.mp current) old
        have taken : address ≠ s.addr p := (safe t p (by rw [position]; rfl)).symm
        simpa [Engine.custody] using taken
      | _ => exact same rfl
    | stage1 move => exact same (by cases move <;> rfl)
    | stage2 move => exact same (by cases move <;> rfl)
    | closer move => exact same (by cases move <;> rfl)

theorem regular_of_noOvertaking (sound : Sound cfg s) (aimed : Aimed s)
    (move : Move cfg s label s') (clean : s'.ioErr = false) (waits : NoOvertaking s label) :
    s.custody.Regular s'.custody := by
  refine ⟨clean, fun t p e holds pushes straight q late => ?_⟩
  obtain ⟨call, done, position⟩ := Role.position_of_holds holds
  rcases decide_of_held move position with still | ⟨rfl, decision, way, after, -⟩
  · have pushes : (s'.fg t).role = .pushing p e := pushes
    simp [still, position, Fg.role, ChunkPc.role] at pushes
  · have more := sound.ready.progress t call done _ position
    have rights := sound.owned.rights (.fg t)
    rw [show s.custody.role (.fg t) = _ from role_at position] at rights
    obtain ⟨-, empty, -, -⟩ := rights.2.2 rfl
    have enqueued : decision.enqueue = some e := by
      have pushes : (s'.fg t).role = .pushing p e := pushes
      rw [after] at pushes
      cases enqueue : decision.enqueue <;>
        simp_all [Decision.next, Fg.role, ChunkPc.role]
    have whole := way.whole (sound.ready.wellFormed p) (Call.chunk_pos more)
      (call.intra_add_chunk_le done) empty enqueued straight
    have base : (s.pages p).base = call.base done := aimed t call done _ p position rfl
    have apart := waits (call.base done) (by simp [position, Fg.bornFull, whole]) q late
    exact fun same => apart (same.trans base)

theorem ioErr_mono (move : Move cfg s label s') (clean : s'.ioErr = false) : s.ioErr = false := by
  cases move with
  | fg move => cases move <;> exact clean
  | stage1 move =>
    cases move with
    | drop => simp at clean
    | _ => exact clean
  | stage2 move =>
    cases move with
    | latch => exact (Bool.or_eq_false_iff.mp clean).1
    | _ => exact clean
  | closer move => cases move <;> exact clean

theorem freed_mono (sound : Sound cfg s) (move : Move cfg s label s') {p : PageId}
    (freed : s.freed p = true) : s'.freed p = true := by
  rcases sound.refines move with same | step
  · exact (congrFun (congrArg Custody.freed same) p).trans freed
  · exact step.freed_mono freed

/-! ## Along a run -/

/-- What holds in every state when addresses are safe. -/
structure Guided (cfg : Config) (s : Engine n) : Prop extends Ordinary cfg s where
  newest : s.custody.Newest
  pointed : s.custody.Pointed

theorem Guided.init (cfg : Config) (file : File) (scratch : Nat → UInt8) :
    Guided cfg (Engine.init n cfg file scratch) :=
  { Ordinary.init cfg file scratch with
    newest := fun b p member => by simp [Engine.custody, Engine.init] at member
    pointed := fun o p points => by
      cases o <;> simp [Engine.custody, Engine.init, Fg.role, Closer.role] at points }

theorem Guided.step (guided : Guided cfg s) (move : Move cfg s label s')
    (safe : SafeAddress s label) : Guided cfg s' := by
  refine { guided.toOrdinary.step move with newest := ?_, pointed := ?_ }
  · rcases guided.sound.refines move with same | step
    · exact same ▸ guided.newest
    · exact guided.newest.step guided.sound.owned step
  · have fenced := fenced_of_safe move safe
    rcases guided.sound.refines move with same | step
    · exact same ▸ guided.pointed
    · exact guided.pointed.step guided.sound.owned step fenced

/-- What holds besides when nothing overtakes and no error is latched. -/
structure Scheduled (cfg : Config) (s : Engine n) : Prop extends Guided cfg s where
  orderly : s.custody.Orderly

theorem Scheduled.init (cfg : Config) (file : File) (scratch : Nat → UInt8) :
    Scheduled cfg (Engine.init n cfg file scratch) := by
  have role : ∀ o, (Engine.init n cfg file scratch).custody.role o = .none := fun o => by
    cases o <;> rfl
  refine { Guided.init cfg file scratch with orderly := ?_ }
  exact
    { present := fun p alive => by simp [Custody.Alive, Engine.custody, Engine.init] at alive
      linked := fun o p carried => by simp [role, Role.carried] at carried
      sorted := .nil
      straight := fun o p e pushes => by simp [role] at pushes
      handed := fun o p points => by simp [role] at points
      retired := fun p freed => by simp [Engine.custody, Engine.init] at freed }

theorem Scheduled.step (scheduled : Scheduled cfg s) (move : Move cfg s label s')
    (safe : SafeAddress s label) (waits : NoOvertaking s label) (clean : s'.ioErr = false) :
    Scheduled cfg s' := by
  refine { scheduled.toGuided.step move safe with orderly := ?_ }
  have regular := regular_of_noOvertaking scheduled.sound scheduled.aimed move clean waits
  rcases scheduled.sound.refines move with same | step
  · exact same ▸ scheduled.orderly
  · exact scheduled.orderly.step scheduled.sound.owned scheduled.newest scheduled.pointed step regular

end NoxDB

import NoxDB.Library.Histories
import NoxDB.Engine.Integrity

/-! # Addresses that come back

`page_index_detach_if` compares addresses only, and a writer calls it with a pointer whose
page lock it has dropped.  When the allocator does not hand out the address of a page that
somebody is still going to detach, what is unlinked is the page the writer found sealed, and
nothing else depends on addresses.  Without that, a writer can unlink a page it has never seen.
-/

namespace NoxDB

open Function (update)
open Library.Runs
open Library.Histories

variable {n : Nat}

/-- The page that the event says thread `t` found sealed, or sealed. -/
def Event.seals (t : Fin n) : Event n → Option PageId
  | .sawSealed u p => if u = t then some p else none
  | _ => none

/-- The page that thread `t` last found sealed, or sealed. -/
def Engine.lastSealed (s : Engine n) (t : Fin n) : Option PageId := s.log.findSome? (Event.seals t)

/-- What a writer unlinks is the page it last found sealed. -/
def DetachesSealed (event : Event n) (older : List (Event n)) : Prop :=
  ∀ t p, event = .unlinked t p → older.findSome? (Event.seals t) = some p

/-- A thread that gave up a page found it sealed. -/
def Remembers (s : Engine n) : Prop :=
  ∀ t p, (s.fg t).retrying = some p ∨ (s.fg t).detaching = some p → s.lastSealed t = some p

/-- The event is neither a page found sealed nor a page unlinked. -/
def Event.unrelated : Event n → Bool
  | .sawSealed _ _ | .unlinked _ _ => false
  | _ => true

variable {cfg : Config} {file : File} {scratch : Nat → UInt8} {s s' : Engine n} {label : Label n}

theorem Event.seals_of_unrelated {event : Event n} (unrelated : event.unrelated = true)
    (t : Fin n) : event.seals t = none := by
  cases event with
  | sawSealed u p => simp [Event.unrelated] at unrelated
  | _ => rfl

/-- What a step records about sealed pages. -/
inductive SealStep (s s' : Engine n) : Label n → Prop where
  | silent {step} (events : List (Event n)) (log : s'.log = events ++ s.log)
      (unrelated : ∀ event ∈ events, event.unrelated = true) : SealStep s s' step
  | decide {t call done p created decision}
      (position : s.fg t = .scrap call done (.held p created))
      (after : s'.fg t = .scrap call done (decision.next p))
      (log : s'.log = chunkEvents t p call done decision ++ s.log) : SealStep s s' (.fg t)
  | detach {t call done p} (position : s.fg t = .scrap call done (.detach p))
      (log : s'.log =
        ((s.detachTarget (call.base done) (s.addr p)).toList.map (.unlinked t)) ++ s.log) :
      SealStep s s' (.fg t)

theorem seal_step (move : Move cfg s label s') : SealStep s s' label := by
  cases move with
  | fg move =>
    cases move with
    | decide position decision decided => exact .decide position (by simp) rfl
    | detach position => exact .detach position rfl
    | callZero | oomPage | oomDirect | unlockDone | alloc =>
      exact .silent [_] rfl (by simp [Event.unrelated])
    | pwrite => exact .silent [_, _] rfl (by simp [Event.unrelated])
    | _ => exact .silent [] rfl (by simp)
  | stage1 move =>
    cases move with
    | inspectHoles => exact .silent [_] rfl (by simp [Event.unrelated])
    | _ => exact .silent [] rfl (by simp)
  | stage2 move =>
    cases move with
    | free => exact .silent [_] rfl (by simp [Event.unrelated])
    | pwritev =>
      refine .silent (_ ++ [_]) (List.append_cons _ _ _) fun event member => ?_
      rcases List.mem_append.mp member with wrote | issued
      · obtain ⟨p, -, rfl⟩ := List.mem_map.mp (List.mem_reverse.mp wrote)
        rfl
      · obtain rfl := List.mem_singleton.mp issued
        rfl
    | _ => exact .silent [] rfl (by simp)
  | closer move =>
    cases move with
    | destroy =>
      refine .silent _ rfl fun event member => ?_
      obtain ⟨p, -, rfl⟩ := List.mem_map.mp member
      rfl
    | _ => exact .silent [] rfl (by simp)

/-- What a critical section records about sealed pages. -/
theorem lastSealed_of_chunk {t : Fin n} {p : PageId} {call : Call} {done : Nat} {decision : Decision}
    (log : s'.log = chunkEvents t p call done decision ++ s.log) (u : Fin n) :
    s'.lastSealed u = if decision.after = .retry ∧ t = u then some p else s.lastSealed u := by
  rw [Engine.lastSealed, log, chunkEvents]
  simp only [List.findSome?_append]
  have quiet : ∀ {c : Prop} [Decidable c] {event : Event n}, event.seals u = none →
      (if c then [event] else []).findSome? (Event.seals u) = none := by
    intro c _ event none
    split <;> simp [none]
  rw [quiet (c := (scrapPageIsFull decision.page && decision.merged) = true) rfl,
    quiet (c := decision.merged = true) rfl,
    quiet (c := decision.sealedNow = true) rfl]
  by_cases retry : decision.after = .retry <;> by_cases same : t = u <;>
    simp [retry, same, Event.seals, Engine.lastSealed]

theorem lastSealed_of_silent {events : List (Event n)} (log : s'.log = events ++ s.log)
    {t : Fin n} (unrelated : ∀ event ∈ events, event.seals t = none) :
    s'.lastSealed t = s.lastSealed t := by
  rw [Engine.lastSealed, log, List.findSome?_append, List.findSome?_eq_none_iff.mpr unrelated]
  rfl

/-- A thread that gave up a page did so before, or its critical section has just decided it. -/
theorem gave_up_cases (move : Move cfg s label s') {t : Fin n} {p : PageId}
    (holds : (s'.fg t).retrying = some p ∨ (s'.fg t).detaching = some p) :
    ((s.fg t).retrying = some p ∨ (s.fg t).detaching = some p) ∨
      ∃ (call : Call) (done : Nat) (decision : Decision), decision.after = .retry ∧
        s'.log = chunkEvents t p call done decision ++ s.log := by
  by_cases mine : label.thread = some t
  · cases own_move move mine with
    | @decide u call done q created position decision decided =>
      obtain rfl : u = t := Option.some.inj mine
      simp only [Function.update_self] at holds
      obtain ⟨retry, rfl⟩ := Decision.retry_of_giving_up holds
      exact .inr ⟨call, done, decision, retry, rfl⟩
    | @partialInc u call done q outcome position | @partialPush u call done q outcome position
    | @fullInc u call done q outcome position | @fullEnter u call done q outcome position
    | @fullPush u call done q outcome position =>
      obtain rfl : u = t := Option.some.inj mine
      left
      rw [position]
      cases outcome with
      | ret => simp [Fg.retrying, Fg.detaching] at holds
      | retry => simpa [Fg.retrying, Fg.detaching] using holds
    | unlockRetry position =>
      obtain rfl := Option.some.inj mine
      left
      simpa [position, Fg.retrying, Fg.detaching] using holds
    | callZero => exact .inl holds
    | _ =>
      obtain rfl := Option.some.inj mine
      simp [Fg.retrying, Fg.detaching] at holds
  · rw [fg_frame move mine] at holds
    exact .inl holds

namespace Remembers

theorem init (cfg : Config) (file : File) (scratch : Nat → UInt8) :
    Remembers (Engine.init n cfg file scratch) := by
  intro t p holds
  simp [Engine.init, Fg.retrying, Fg.detaching] at holds

theorem step (remembers : Remembers s) (move : Move cfg s label s') : Remembers s' := by
  intro t p holds
  rcases gave_up_cases move holds with before | ⟨call, done, decision, retry, log⟩
  · -- The thread has not looked at another page since.
    refine Eq.trans ?_ (remembers t p before)
    cases seal_step move with
    | silent events log unrelated =>
      exact lastSealed_of_silent log fun event member =>
        Event.seals_of_unrelated (unrelated event member) t
    | @decide u call done q created decision position after log =>
      rw [lastSealed_of_chunk log, if_neg]
      rintro ⟨-, rfl⟩
      simp [position, Fg.retrying, Fg.detaching] at before
    | detach position log =>
      refine lastSealed_of_silent log fun event member => ?_
      obtain ⟨q, -, rfl⟩ := List.mem_map.mp member
      rfl
  · rw [lastSealed_of_chunk log, if_pos ⟨retry, rfl⟩]

end Remembers

/-- What a writer unlinks is the page it gave up, as long as nothing alive has its address. -/
theorem detaches_step (remembers : Remembers s) (guided : Guided cfg s)
    (past : Past DetachesSealed s.log) (move : Move cfg s label s') :
    Past DetachesSealed s'.log := by
  cases seal_step move with
  | silent events log unrelated =>
    rw [log]
    refine past.append fun event member older t p same => ?_
    have other := unrelated event member
    simp [same, Event.unrelated] at other
  | decide position after log =>
    rw [log]
    refine past.append fun event member older t p same => ?_
    subst same
    simp [chunkEvents] at member
  | @detach t call done p position log =>
    rw [log]
    cases target : s.detachTarget (call.base done) (s.addr p) with
    | none => exact past
    | some q =>
      refine past.cons fun u r same => ?_
      obtain ⟨rfl, rfl⟩ := Event.unlinked.inj same
      have found : s.addr q = s.addr p := by simpa using List.find?_some target
      have linked := List.mem_of_find?_eq_some target
      have alive := (guided.sound.owned.indexed _ q linked).1
      obtain rfl : q = p := guided.pointed (.fg t) p (role_at position) q alive found
      exact remembers t q (.inr (by rw [position]; rfl))

/-! ## Along a run -/

/-- In a run in which no address is reused while somebody is going to detach the page that had
it, what a writer unlinks is always the page it last found sealed.  If besides every call takes
the scrap path, concurrent calls share no byte, no allocation fails and reads are whole, then the
file that `nox_close` leaves holds the last write at every offset, whatever addresses come
back. -/
theorem detach_identity
    (run : Run (Engine.step cfg) SafeAddress (Engine.init n cfg file scratch) s) :
    (∀ newer t p older, s.log = newer ++ .unlinked t p :: older →
      older.findSome? (Event.seals t) = some p) ∧
    (Run (Engine.step cfg) SafeSetting (Engine.init n cfg file scratch) s →
      (∀ t call rc, Event.returned t call rc ∈ s.log → rc = .ok) → s.closer = .returned false →
      ∀ y, s.file.byte y = s.lastWritten file y) := by
  have all : (Guided cfg s ∧ Remembers s) ∧ Past DetachesSealed s.log := by
    apply run.invariant fun s => (Guided cfg s ∧ Remembers s) ∧ Past DetachesSealed s.log
    · exact ⟨⟨.init cfg file scratch, .init cfg file scratch⟩, .nil⟩
    · rintro middle last label ⟨⟨guided, remembers⟩, past⟩ safe stepped
      have move := move_of_step stepped
      exact ⟨⟨guided.step move safe, remembers.step move⟩, detaches_step remembers guided past move⟩
  refine ⟨fun newer t p older log => ?_, fun safe ok closed => lastWritten_of_safe safe ok closed⟩
  exact all.2 newer (.unlinked t p) older log t p rfl

/-- A writer that seals a page and detaches it unlinks the page it sealed. -/
theorem detach_identity_of_sealed :
    ∃ s : Engine 1, Run (Engine.step .oneEntry) SafeAddress
      (Engine.init 1 .oneEntry emptyFile fun _ => 0) s ∧
      ∃ newer p older, s.log = newer ++ .unlinked 0 p :: older ∧
        older.findSome? (Event.seals 0) = some p := by
  obtain ⟨s, run, unlinked⟩ := exists_run .oneEntry emptyFile (fun _ => 0)
    (fun (s : Engine 1) label => SafeAddress s label) (fun _ _ passed => of_decide_eq_true passed)
    (sealEntry 0) (fun s => (s.log.any fun | .unlinked 0 _ => true | _ => false) = true)
    (by decide +kernel)
  obtain ⟨event, member, isUnlinked⟩ := List.any_eq_true.mp unlinked
  obtain ⟨newer, older, log⟩ := List.append_of_mem member
  cases event with
  | unlinked t p =>
    obtain rfl : t = 0 := Subsingleton.elim _ _
    exact ⟨s, run, newer, p, older, log, (detach_identity run).1 newer 0 p older log⟩
  | _ => simp at isUnlinked

/-! ## A run with a reused address

Thread 0 seals page 0 and drops its lock.  Both stages take the page to the device and free it;
thread 1 then creates a page of the same base at the address that came back, and thread 0
detaches it. -/

/-- Stage-1 reads the holes of the page beyond the end of the file, Stage-2 writes it and frees it. -/
def freeSealed : List (Label 2) :=
  ([.stage1, .stage1, .stage1, .stage1, .pread (.count 0), .stage1, .stage1, .stage1, .stage1] :
    List (Label 2)) ++ writebackOne ++ (List.replicate 6 .stage2 : List (Label 2))

/-- Thread 1 creates a page at the address that page 0 had. -/
def reusePage : List (Label 2) :=
  [.call 1 (dotCall 0), .fg 1, .alloc 1 7 (fun _ => 1)]

/-- The newest event is that a writer unlinked a page it had not found sealed. -/
def strayDetach : List (Event n) → Bool
  | .unlinked t p :: older => older.findSome? (Event.seals t) != some p
  | _ => false

set_option maxRecDepth 4000 in
/-- When the allocator reuses the address of a page that is still to be detached, a writer unlinks
a page it never found sealed. -/
theorem detach_identity_reused :
    ¬ ∀ s : Engine 2, Run (Engine.step .standard) (fun _ label => label.faultless = true)
        (Engine.init 2 .standard emptyFile fun _ => 0) s →
      ∀ newer t p older, s.log = newer ++ .unlinked t p :: older →
        older.findSome? (Event.seals t) = some p := by
  intro claimed
  obtain ⟨s, run, stray⟩ := exists_run .standard emptyFile (fun _ => 0)
    (fun (_ : Engine 2) label => label.faultless) (fun _ _ passed => passed)
    ((sealPage 0).dropLast ++ freeSealed ++ reusePage ++ ([.fg 0] : List (Label 2)))
    (fun s => strayDetach s.log = true) (by decide +kernel)
  cases log : s.log with
  | nil => simp [log, strayDetach] at stray
  | cons event older =>
    cases event with
    | unlinked t p =>
      have sealed := claimed s run [] t p older log
      simp [log, strayDetach, sealed] at stray
    | _ => simp [log, strayDetach] at stray

end NoxDB

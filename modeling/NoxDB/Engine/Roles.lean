import NoxDB.Engine.Moves

/-! # What each thread owns

The part of a program counter that the ownership argument looks at: which page
lock a thread wants or holds, whether the page is fresh from the allocator, and
whether it is being pushed; and the pages that are in the hands of the two stages.
-/

namespace NoxDB

open Function (update)

variable {n : Nat}

/-! ## Roles -/

inductive Role where
  | none
  /-- Holds the shard lock of `base` and waits for the lock of `p`. -/
  | wants (base : Nat) (p : PageId)
  /-- Holds the lock of `p`; a fresh page was created by this thread and not merged yet. -/
  | holds (p : PageId) (fresh : Bool)
  /-- Holds the lock of `p` and is about to push it. -/
  | pushing (p : PageId) (at_ : Enqueue)
  /-- Gave up the lock of the sealed page `p` and keeps the bare pointer. -/
  | points (p : PageId)
deriving DecidableEq, Repr

/-- The page whose lock the role holds. -/
def Role.held : Role → Option PageId
  | .holds p _ => some p
  | .pushing p _ => some p
  | _ => .none

/-- The push goes straight to Queue-2. -/
def Enqueue.isFull : Enqueue → Bool
  | .partialInc | .partialPush => false
  | .fullInc | .fullEnter | .fullPush => true

def ChunkPc.role (base : Nat) : ChunkPc → Role
  | .lockPage p => .wants base p
  | .held p created => .holds p created
  | .enqueue p e _ => .pushing p e
  | .unlock p _ => .holds p false
  | .detach p => .points p
  | _ => .none

def Fg.role : Fg → Role
  | .scrap call done pc => pc.role (call.base done)
  | _ => .none

def Closer.role : Closer → Role
  | .sweepEnqueue _ _ p e => .pushing p e
  | .sweepUnlock _ _ p => .holds p false
  | _ => .none

/-- The role of each thread that can hold a page lock. -/
def roleOf (fg : Fin n → Fg) (closer : Closer) : Owner n → Role
  | .fg t => (fg t).role
  | .closer => closer.role

@[simp] theorem roleOf_fg (fg : Fin n → Fg) (closer : Closer) (t : Fin n) :
    roleOf fg closer (.fg t) = (fg t).role := rfl

@[simp] theorem roleOf_closer (fg : Fin n → Fg) (closer : Closer) :
    roleOf fg closer .closer = closer.role := rfl

theorem role_at {s : Engine n} {t : Fin n} {f : Fg} (position : s.fg t = f) :
    roleOf s.fg s.closer (.fg t) = f.role := by
  rw [roleOf_fg, position]

theorem closer_role_at {s : Engine n} {closer : Closer} (position : s.closer = closer) :
    roleOf s.fg s.closer .closer = closer.role := by
  rw [roleOf_closer, position]

theorem roleOf_update (fg : Fin n → Fg) (closer : Closer) (t : Fin n) (f : Fg) :
    roleOf (update fg t f) closer = update (roleOf fg closer) (.fg t) f.role := by
  funext o
  cases o with
  | fg other =>
    by_cases same : other = t
    · subst same; simp
    · simp [same]
  | closer => simp

theorem roleOf_closer_update (fg : Fin n → Fg) (closer after : Closer) :
    roleOf fg after = update (roleOf fg closer) .closer after.role := by
  funext o
  cases o <;> simp

/-- A foreground move that keeps the role of its thread keeps every role. -/
theorem roleOf_fg_quiet {fg : Fin n → Fg} {t : Fin n} {f : Fg} (closer : Closer)
    (same : f.role = (fg t).role) : roleOf (update fg t f) closer = roleOf fg closer := by
  rw [roleOf_update, same, ← roleOf_fg fg closer, Function.update_eq_self]

theorem roleOf_closer_quiet (fg : Fin n → Fg) {closer after : Closer}
    (same : after.role = closer.role) : roleOf fg after = roleOf fg closer := by
  rw [roleOf_closer_update fg closer after, same, ← roleOf_closer fg closer,
    Function.update_eq_self]

/-! ## Pages in the hands of the stages -/

/-- The page in Stage-1's hand. -/
def Stage1.pages : Stage1 → List PageId
  | .popped p | .forwardEnter p | .forwardPush p | .busyPush p | .guardWait p _ | .readStart p _
  | .reading p _ | .readFailed p | .finish p _ | .fillEnter p | .fillPush p => [p]
  | _ => []

/-- The pages Stage-2 has tagged `NOX_TAG_FLUSHING`. -/
def Stage2.tagged : Stage2 → List PageId
  | .detaching done _ | .tagging done _ _ => done
  | .writeStart batch | .writing batch _ | .written batch _ | .latch batch _ | .freeing batch
  | .leaving _ _ batch | .decrement batch => batch
  | _ => []

/-- The page Stage-2 has unlinked and not tagged yet. -/
def Stage2.unlinked : Stage2 → Option PageId
  | .tagging _ p _ => some p
  | _ => none

/-- The pages Stage-2 has popped and not unlinked yet. -/
def Stage2.kept : Stage2 → List PageId
  | .popped p | .busyPush p => [p]
  | .collect batch => batch
  | .check batch next | .pushBack batch next => batch ++ [next]
  | .detaching _ todo | .tagging _ _ todo => todo
  | _ => []

/-- The pages in Stage-2's hands. -/
def Stage2.pages (s2 : Stage2) : List PageId := s2.tagged ++ s2.unlinked.toList ++ s2.kept

end NoxDB

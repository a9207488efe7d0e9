import NoxDB.Engine.Roles

/-! # Custody of pages

The engine seen as a protocol about who owns which page: roles, locks, the index and
the order in which queued pages will be written.  A page that is queued sits in one
of four places, in the order in which they are written: tagged by Stage-2, unlinked
by Stage-2, past Stage-1 (`early`), or in Stage-1's hand and Queue-1 (`late`).
`Custody.Step` has one constructor for each way custody changes hands.
-/

namespace NoxDB

open Function (update)

variable {n : Nat}

structure Custody (n : Nat) where
  role : Owner n → Role
  lock : PageId → Option (Owner n)
  shard : Nat → Option (Fin n)
  buckets : Nat → List PageId
  created : Nat
  freed : PageId → Bool
  addr : PageId → Nat
  base : PageId → Nat
  tag : PageId → Tag
  entries : PageId → List ScrapEntry
  inQueue : PageId → Bool
  detached : PageId → Bool
  tagged : List PageId
  unlinked : Option PageId
  early : List PageId
  late : List PageId
  /-- An I/O error was latched. -/
  failed : Bool

namespace Custody

/-- Queued pages that Stage-2 has not tagged. -/
def waiting (c : Custody n) : List PageId := c.unlinked.toList ++ c.early ++ c.late

/-- Queued pages, in the order in which they will be written. -/
def pipe (c : Custody n) : List PageId := c.tagged ++ c.waiting

/-- `page_index_detach_if` on the chains. -/
def unlinkAddr (c : Custody n) (base address : Nat) : Nat → List PageId :=
  update c.buckets (piHash base) ((c.buckets (piHash base)).eraseP fun q => c.addr q == address)

/-- How custody changes hands. -/
inductive Step (c : Custody n) : Custody n → Prop where
  /-- A lookup found `p` and waits for its lock under the shard lock. -/
  | want {t base p} (idle : c.role (.fg t) = .none)
      (free : c.shard (Engine.shardOf base) = none) (member : p ∈ c.buckets (piHash base))
      (found : c.base p = base) :
      Step c
        { c with
          role := update c.role (.fg t) (.wants base p)
          shard := update c.shard (Engine.shardOf base) (some t) }
  | acquire {t base p} (waits : c.role (.fg t) = .wants base p) (free : c.lock p = none) :
      Step c
        { c with
          role := update c.role (.fg t) (.holds p false)
          lock := update c.lock p (some (.fg t))
          shard := update c.shard (Engine.shardOf base) none }
  | create {t base address} (idle : c.role (.fg t) = .none)
      (free : c.shard (Engine.shardOf base) = none)
      (absent : ∀ p ∈ c.buckets (piHash base), c.base p ≠ base)
      (unused : ∀ q < c.created, c.freed q = false → c.addr q ≠ address) :
      Step c
        { c with
          role := update c.role (.fg t) (.holds c.created true)
          lock := update c.lock c.created (some (.fg t))
          created := c.created + 1
          buckets := update c.buckets (piHash base) (c.created :: c.buckets (piHash base))
          addr := update c.addr c.created address
          base := update c.base c.created base
          tag := update c.tag c.created .opened
          entries := update c.entries c.created []
          inQueue := update c.inQueue c.created false
          detached := update c.detached c.created false }
  /-- A critical section that leaves the page where it is. -/
  | settle {t p tag entries} (holds : c.role (.fg t) = .holds p false) (open_ : tag ≠ .flushing) :
      Step c
        { c with
          tag := update c.tag p tag
          entries := update c.entries p entries }
  /-- A critical section that decides to push the page. -/
  | enlist {t p fresh e tag entries} (holds : c.role (.fg t) = .holds p fresh)
      (open_ : tag ≠ .flushing) (absent : c.inQueue p = false) :
      Step c
        { c with
          role := update c.role (.fg t) (.pushing p e)
          tag := update c.tag p tag
          entries := update c.entries p entries
          inQueue := update c.inQueue p true }
  /-- The sweep of `nox_close` locks a resident page and decides to push it. -/
  | sweep {p bucket e tag} (idle : c.role .closer = .none) (free : c.lock p = none)
      (member : p ∈ c.buckets bucket) (absent : p ∉ c.pipe) (open_ : tag ≠ .flushing) :
      Step c
        { c with
          role := update c.role .closer (.pushing p e)
          lock := update c.lock p (some .closer)
          tag := update c.tag p tag
          inQueue := update c.inQueue p true }
  | advance {o p e e'} (pushes : c.role o = .pushing p e) (kind : e'.isFull = e.isFull) :
      Step c { c with role := update c.role o (.pushing p e') }
  | pushPartial {o p e} (pushes : c.role o = .pushing p e) (kind : e.isFull = false) :
      Step c { c with role := update c.role o (.holds p false), late := c.late ++ [p] }
  | pushFull {o p e} (pushes : c.role o = .pushing p e) (kind : e.isFull = true) :
      Step c { c with role := update c.role o (.holds p false), early := c.early ++ [p] }
  | release {o p r} (holds : c.role o = .holds p false) (next : r = .none ∨ r = .points p) :
      Step c { c with role := update c.role o r, lock := update c.lock p none }
  /-- The foreground call of `page_index_detach_if`. -/
  | abandon {t p base} (points : c.role (.fg t) = .points p)
      (free : c.shard (Engine.shardOf base) = none) :
      Step c
        { c with
          role := update c.role (.fg t) .none
          buckets := c.unlinkAddr base (c.addr p) }
  /-- Stage-1 fills the holes of the page in its hand. -/
  | fill {p rest entries} (front : c.late = p :: rest) (free : c.lock p = none) :
      Step c { c with tag := update c.tag p .full, entries := update c.entries p entries }
  /-- Stage-1 drops a page whose holes it could not read. -/
  | drop {p rest} (front : c.late = p :: rest) (free : c.lock p = none) :
      Step c { c with inQueue := update c.inQueue p false, late := rest, failed := true }
  /-- Stage-1 pushes the page in its hand to Queue-2. -/
  | forward {p rest} (front : c.late = p :: rest) :
      Step c { c with early := c.early ++ [p], late := rest }
  | unlink {p rest} (none_ : c.unlinked = none) (front : c.early = p :: rest)
      (free : c.shard (Engine.shardOf (c.base p)) = none) :
      Step c
        { c with
          buckets := c.unlinkAddr (c.base p) (c.addr p)
          detached := update c.detached p true
          unlinked := some p
          early := rest }
  | tag {p} (front : c.unlinked = some p) (free : c.lock p = none) :
      Step c
        { c with
          tag := update c.tag p .flushing
          inQueue := update c.inQueue p false
          tagged := c.tagged ++ [p]
          unlinked := none }
  /-- Stage-2 latches the outcome of a writeback. -/
  | latch {error : Bool} : Step c { c with failed := c.failed || error }
  | free {p rest} (front : c.tagged = p :: rest) :
      Step c { c with freed := update c.freed p true, tagged := rest }
  | destroy {resident : List PageId} (idle : ∀ o, c.role o = .none) (drained : c.pipe = [])
      (all : ∀ p, p ∈ resident ↔ ∃ b, p ∈ c.buckets b) :
      Step c
        { c with
          freed := fun p => c.freed p || resident.contains p
          buckets := fun _ => [] }

end Custody

/-- The custody of an engine. -/
def Engine.custody (s : Engine n) : Custody n where
  role := roleOf s.fg s.closer
  lock := s.lock
  shard := s.shard
  buckets := s.buckets
  created := s.created
  freed := s.freed
  addr := s.addr
  base := fun p => (s.pages p).base
  tag := fun p => (s.pages p).hdr.tag
  entries := fun p => (s.pages p).hdr.entries
  inQueue := fun p => (s.pages p).inQueue
  detached := fun p => (s.pages p).detached
  tagged := s.s2.tagged
  unlinked := s.s2.unlinked
  early := s.s2.kept ++ s.q2
  late := s.s1.pages ++ s.q1
  failed := s.ioErr

end NoxDB

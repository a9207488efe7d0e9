import NoxDB.Engine.Conservation
import NoxDB.Engine.Flusher
import NoxDB.Queue.Calls

/-! # The queues of the engine in memory

The engine has its queues as lists and changes them by whole calls.  In memory they are the
intrusive lists of `queue.c`: every change is a call that goes through the links of the pages,
with the same result.  The engine also keeps the rule on which `queue.c` relies and which nothing
there checks, that a page is pushed only while it is in no queue.
-/

namespace NoxDB

open Function (update)
open Library.Links
open Library.Runs

def Ledger.lists (l : Ledger PageId) : QueueId → List PageId
  | .q1 => l.q1
  | .q2 => l.q2

variable {n : Nat} {base : PageId → Nat} {l l' : Ledger PageId} {session : Queues 1}

variable {cfg : Config} {file : File} {scratch : Nat → UInt8} {s : Engine n}

end NoxDB

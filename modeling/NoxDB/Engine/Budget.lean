import Mathlib.Algebra.BigOperators.Intervals
import NoxDB.Engine.Contents
import NoxDB.IoDirect.Gather
import NoxDB.ScrapPage.Complement

/-! # What the engine has still to do

A number of steps that is enough for everything that is under way: the calls of the
writers with their retries, the pages in the two queues and in the hands of the two
stages, and the walk of `nox_close`.  Every step but a new call of the application
uses some of it up (`budget_step`), whatever the device and the allocator answer.

A writer starts over when it finds its page sealed.  It has then taken that page out of
the index, or somebody else has, and a page comes into the index only with a writer that
completes a chunk on it.  So a writer can start over once for each linked page and for
each byte that is still to be delivered, by whomever.
-/

namespace NoxDB

open Function (update)
open Library.Lists
open Library.Counting

variable {n : Nat}

/-! ## The price of a page -/

/-- The steps of one page from Queue-2 to the free, in a batch of its own. -/
def flushCost : Nat := 26

/-- The steps of one page from Queue-1 on, with one `pread` for each hole. -/
def fillCost (cfg : Config) : Nat := flushCost + cfg.maxEntries + 9

/-- The steps of one page under the walk of `nox_close`. -/
def sweepCost (cfg : Config) : Nat := fillCost cfg + 7

/-- One pass of `scrap_write_chunk`, with the page it may leave behind. -/
def passCost (cfg : Config) : Nat := fillCost cfg + sweepCost cfg + 9

def Enqueue.cost (cfg : Config) : Enqueue → Nat
  | .partialInc => fillCost cfg + 2
  | .partialPush => fillCost cfg + 1
  | .fullInc => flushCost + 3
  | .fullEnter => flushCost + 2
  | .fullPush => flushCost + 1

theorem Enqueue.cost_le (cfg : Config) (e : Enqueue) : e.cost cfg ≤ fillCost cfg + 2 := by
  cases e <;> simp only [cost, fillCost] <;> omega

/-! ## The writers -/

/-- The chunk is merged, or will be without fail: the page is new. -/
def ChunkPc.committed : ChunkPc → Bool
  | .held _ true | .enqueue _ _ .ret | .unlock _ .ret => true
  | _ => false

/-- The page the writer may still have to turn away from. -/
def ChunkPc.candidate (pc : ChunkPc) : Option PageId := if pc.committed then none else pc.target

def ChunkPc.cost (cfg : Config) : ChunkPc → Nat
  | .lookup => 1
  | .parked => 2
  | .gate => 3
  | .detach _ => 4
  | .unlock _ _ => 5
  | .enqueue _ e _ => e.cost cfg + 5
  | .held _ _ => fillCost cfg + 8
  | .lockPage _ => fillCost cfg + 9

def Fg.candidate : Fg → Option PageId
  | .scrap _ _ pc => pc.candidate
  | _ => none

/-- The bytes of the call that no page has yet. -/
def Fg.remaining : Fg → Nat
  | .scrap call done pc => call.size - (if pc.committed then done + call.chunk done else done)
  | _ => 0

def Fg.cost (cfg : Config) : Fg → Nat
  | .idle => 0
  | .direct _ => 1
  | .scrap _ _ pc => pc.cost cfg

/-- The linked pages, but for one. -/
def linkedBut (chains : Nat → List PageId) (p : Option PageId) : Nat :=
  ∑ b ∈ Finset.range piBuckets, (chains b).countP fun q => p != some q

/-- A writer starts over at most once for each of these. -/
def Fg.budget (n : Nat) (cfg : Config) (chains : Nat → List PageId) (f : Fg) : Nat :=
  passCost cfg * (linkedBut chains f.candidate + (n + 1) * f.remaining) + f.cost cfg

/-! ## The stages -/

def Stage1.cost (cfg : Config) : Stage1 → Nat
  | .exited => 0
  | .idle => 1
  | .dropDec | .waitNotBusy => 2
  | .forwardPush _ | .fillPush _ => flushCost + 2
  | .forwardEnter _ | .fillEnter _ => flushCost + 3
  | .finish _ _ => flushCost + 4
  | .readFailed _ => flushCost + 5
  | .reading _ runs => flushCost + runs.length + 5
  | .readStart _ holes => flushCost + holes.length + 6
  | .guardWait _ holes => flushCost + holes.length + 7
  | .popped _ | .busyPush _ => fillCost cfg

/-- The calls `io_direct_pwritev_all` has left: each completes an iovec or costs stall budget. -/
def PwritevState.calls (st : PwritevState) (count : Nat) : Nat :=
  (ioMaxStall + 1) * (count - st.i) + st.stall

def Stage2.cost : Stage2 → Nat
  | .exited => 0
  | .idle => 1
  | .waitNotBusy => 2
  | .freeing batch => 3 * batch.length + 2
  | .decrement batch => 3 * batch.length + 3
  | .leaving _ _ batch => 3 * batch.length + 4
  | .latch batch _ => 3 * batch.length + 3
  | .written batch _ => 3 * batch.length + 4
  | .writing batch st => 3 * batch.length + st.calls batch.length + 5
  | .writeStart batch => 8 * batch.length + 10
  | .detaching done todo => 8 * done.length + 10 * todo.length + 11
  | .tagging done _ todo => 8 * done.length + 10 * todo.length + 20
  | .collect batch => 10 * batch.length + 15
  | .pushBack batch _ => 10 * batch.length + flushCost + 13
  | .check batch _ => 10 * batch.length + flushCost + 14
  | .popped _ | .busyPush _ => flushCost

/-! ## The walk of `nox_close` -/

/-- The walk over the buckets from one bucket on. -/
def walkCost (cfg : Config) (chains : Nat → List PageId) (bucket : Nat) : Nat :=
  ∑ b ∈ Finset.Ico bucket piBuckets, (sweepCost cfg * (chains b).length + 1)

/-- What is left of the walk once it is done with page `p` of a bucket. -/
def aheadCost (cfg : Config) (chains : Nat → List PageId) (bucket : Nat) (p : PageId) : Nat :=
  sweepCost cfg * (after (chains bucket) p).length + walkCost cfg chains (bucket + 1)

def Closer.cost (cfg : Config) (chains : Nat → List PageId) : Closer → Nat
  | .running => walkCost cfg chains 0 + 13
  | .disarm => walkCost cfg chains 0 + 12
  | .firstDrain => walkCost cfg chains 0 + 11
  | .sweep _ bucket none => walkCost cfg chains (bucket + 1) + 10
  | .sweep _ bucket (some p) => aheadCost cfg chains bucket p + sweepCost cfg + 10
  | .sweepEnqueue _ bucket p e => aheadCost cfg chains bucket p + e.cost cfg + 12
  | .sweepUnlock _ bucket p => aheadCost cfg chains bucket p + 12
  | .sweepNext _ bucket p => aheadCost cfg chains bucket p + 11
  | .secondDrain _ => 9
  | .stopping _ => 8
  | .shutdown1 _ => 7
  | .join1 _ => 6
  | .shutdown2 _ => 5
  | .join2 _ => 4
  | .lastCheck _ => 3
  | .destroy _ => 2
  | .closeFd _ => 1
  | .returned _ | .fault => 0

/-- A number of steps that is enough for everything under way. -/
def Engine.budget (cfg : Config) (s : Engine n) : Nat :=
  ∑ t, (s.fg t).budget n cfg s.buckets + fillCost cfg * s.q1.length + s.s1.cost cfg +
    flushCost * s.q2.length + s.s2.cost + s.closer.cost cfg s.buckets

/-! ## Chains that shrink and grow -/

section Chains

variable {cfg : Config} {chains chains' : Nat → List PageId}

theorem sublist_of_eraseP (chains : Nat → List PageId) (k : Nat) (test : PageId → Bool) (b : Nat) :
    (update chains k ((chains k).eraseP test) b).Sublist (chains b) := by
  by_cases same : b = k
  · subst same
    simpa using List.eraseP_sublist
  · simp [same]

theorem linkedBut_mono (shrinks : ∀ b, (chains' b).Sublist (chains b)) (p : Option PageId) :
    linkedBut chains' p ≤ linkedBut chains p :=
  Finset.sum_le_sum fun b _ => (shrinks b).countP_le

theorem walkCost_mono (shrinks : ∀ b, (chains' b).Sublist (chains b)) (bucket : Nat) :
    walkCost cfg chains' bucket ≤ walkCost cfg chains bucket :=
  Finset.sum_le_sum fun b _ =>
    Nat.add_le_add_right (Nat.mul_le_mul_left _ (shrinks b).length_le) 1

theorem aheadCost_mono (shrinks : ∀ b, (chains' b).Sublist (chains b)) (bucket : Nat) (p : PageId) :
    aheadCost cfg chains' bucket p ≤ aheadCost cfg chains bucket p :=
  Nat.add_le_add (Nat.mul_le_mul_left _ (length_after_of_sublist p (shrinks bucket)))
    (walkCost_mono shrinks _)

theorem sum_budget_mono (cfg : Config) (fg : Fin n → Fg)
    (shrinks : ∀ b, (chains' b).Sublist (chains b)) :
    ∑ t, (fg t).budget n cfg chains' ≤ ∑ t, (fg t).budget n cfg chains :=
  Finset.sum_le_sum fun _ _ => Nat.add_le_add_right (Nat.mul_le_mul_left _
    (Nat.add_le_add_right (linkedBut_mono shrinks _) _)) _

theorem Closer.cost_mono (cfg : Config) (closer : Closer)
    (shrinks : ∀ b, (chains' b).Sublist (chains b)) :
    closer.cost cfg chains' ≤ closer.cost cfg chains := by
  have walk : ∀ bucket, walkCost cfg chains' bucket ≤ walkCost cfg chains bucket :=
    walkCost_mono shrinks
  have ahead : ∀ bucket p, aheadCost cfg chains' bucket p ≤ aheadCost cfg chains bucket p :=
    aheadCost_mono shrinks
  cases closer with
  | sweep err bucket cur =>
    cases cur with
    | none => exact Nat.add_le_add_right (walk _) _
    | some p => exact Nat.add_le_add_right (Nat.add_le_add_right (ahead _ _) _) _
  | running | disarm | firstDrain => exact Nat.add_le_add_right (walk _) _
  | sweepEnqueue => exact Nat.add_le_add_right (Nat.add_le_add_right (ahead _ _) _) _
  | sweepUnlock | sweepNext => exact Nat.add_le_add_right (ahead _ _) _
  | _ => exact le_rfl

/-- A linked page that is set aside is one less. -/
theorem linkedBut_some_lt {p : PageId} {b : Nat} (bucket : b < piBuckets) (linked : p ∈ chains b) :
    linkedBut chains (some p) < linkedBut chains none := by
  refine Finset.sum_lt_sum (fun b _ => List.countP_mono_left fun q _ _ => by simp) ?_
  refine ⟨b, Finset.mem_range.mpr bucket, ?_⟩
  obtain ⟨before, rest, split⟩ := List.append_of_mem linked
  have fewer : ∀ list : List PageId,
      list.countP (fun q => some p != some q) ≤ list.countP (fun q => none != some q) :=
    fun list => List.countP_mono_left fun q _ _ => by simp
  have first := fewer before
  have second := fewer rest
  simp only [split, List.countP_append, List.countP_cons]
  simp only [bne_self_eq_false, Bool.false_eq_true, if_false, reduceCtorEq, bne_iff_ne, ne_eq,
    not_false_eq_true, if_true]
  omega

theorem linkedBut_of_absent {p : PageId} (absent : ∀ b, p ∉ chains b) :
    linkedBut chains none = linkedBut chains (some p) := by
  refine Finset.sum_congr rfl fun b _ => List.countP_congr fun q member => ?_
  have differs : p ≠ q := fun same => absent b (same ▸ member)
  simp [differs]

/-- A page is in one chain, and there only once. -/
theorem linkedBut_none_le {p : PageId} {k : Nat} (once : ∀ b, (chains b).Nodup)
    (only : ∀ b, p ∈ chains b → b = k) :
    linkedBut chains none ≤ linkedBut chains (some p) + 1 := by
  have each : ∀ b ∈ Finset.range piBuckets, (chains b).countP (fun q => none != some q) ≤
      (chains b).countP (fun q => some p != some q) + if b = k then 1 else 0 := by
    intro b _
    by_cases linked : p ∈ chains b
    · obtain ⟨before, rest, split⟩ := List.append_of_mem linked
      have apart := once b
      rw [split, List.nodup_middle, List.nodup_cons, List.mem_append, not_or] at apart
      have same : ∀ list : List PageId, p ∉ list →
          list.countP (fun q => none != some q) = list.countP fun q => some p != some q :=
        fun list absent => List.countP_congr fun q member => by
          have differs : p ≠ q := fun equal => absent (equal ▸ member)
          simp [differs]
      rw [if_pos (only b linked), split, List.countP_append, List.countP_append, List.countP_cons,
        List.countP_cons, same before apart.1.1, same rest apart.1.2]
      simp
      omega
    · refine le_trans (le_of_eq (List.countP_congr fun q member => ?_)) (Nat.le_add_right _ _)
      have differs : p ≠ q := fun equal => linked (equal ▸ member)
      simp [differs]
  refine le_trans (Finset.sum_le_sum each) ?_
  rw [Finset.sum_add_distrib, Finset.sum_ite_eq']
  exact Nat.add_le_add_left (by split <;> omega) _

theorem linkedBut_cons (k : Nat) (q : PageId) (p : Option PageId) :
    linkedBut (update chains k (q :: chains k)) p ≤ linkedBut chains p + 1 := by
  have each : ∀ b ∈ Finset.range piBuckets,
      (update chains k (q :: chains k) b).countP (fun q => p != some q) ≤
        (chains b).countP (fun q => p != some q) + if b = k then 1 else 0 := by
    intro b _
    by_cases same : b = k
    · subst same
      rw [Function.update_self, List.countP_cons, if_pos rfl]
      exact Nat.add_le_add_left (by split <;> omega) _
    · simp [same]
  refine le_trans (Finset.sum_le_sum each) ?_
  rw [Finset.sum_add_distrib, Finset.sum_ite_eq']
  exact Nat.add_le_add_left (by split <;> omega) _

theorem walkCost_cons (k : Nat) (q : PageId) :
    walkCost cfg (update chains k (q :: chains k)) 0 ≤ walkCost cfg chains 0 + sweepCost cfg := by
  have each : ∀ b ∈ Finset.Ico 0 piBuckets,
      sweepCost cfg * (update chains k (q :: chains k) b).length + 1 ≤
        (sweepCost cfg * (chains b).length + 1) + if b = k then sweepCost cfg else 0 := by
    intro b _
    by_cases same : b = k
    · subst same
      rw [Function.update_self, List.length_cons, Nat.mul_succ, if_pos rfl]
      omega
    · simp [same]
  refine le_trans (Finset.sum_le_sum each) ?_
  rw [Finset.sum_add_distrib, Finset.sum_ite_eq']
  exact Nat.add_le_add_left (by split <;> omega) _

/-- The walk comes to a bucket and looks at its first page. -/
theorem cost_sweep_head (cfg : Config) (chains : Nat → List PageId) (err : Bool) {bucket : Nat}
    (inside : bucket < piBuckets) :
    (Closer.sweep err bucket (chains bucket).head?).cost cfg chains + 1 =
      walkCost cfg chains bucket + 10 := by
  rw [walkCost, Finset.sum_eq_sum_Ico_succ_bot inside]
  cases chain : chains bucket with
  | nil => simp [Closer.cost, walkCost]; omega
  | cons p rest =>
    simp only [List.head?_cons, Closer.cost, aheadCost, chain, after_head, List.length_cons,
      Nat.mul_succ, walkCost]
    omega

/-- The walk goes on to the next page of the chain, or to the end of it. -/
theorem cost_sweep_next (cfg : Config) (err : Bool) {bucket : Nat} (p : PageId)
    (once : (chains bucket).Nodup) :
    (Closer.sweep err bucket (after (chains bucket) p).head?).cost cfg chains ≤
      aheadCost cfg chains bucket p + 10 := by
  cases rest : after (chains bucket) p with
  | nil => simp [Closer.cost, aheadCost]
  | cons q rest' =>
    have member : p ∈ chains bucket := by
      by_contra absent
      have passed : (chains bucket).dropWhile (fun x => x != p) = [] :=
        List.dropWhile_eq_nil_iff.mpr fun x among => by
          have differs : x ≠ p := fun same => absent (same ▸ among)
          simpa using differs
      simp [after, passed] at rest
    simp only [List.head?_cons, Closer.cost, aheadCost, after_next once member rest, rest,
      List.length_cons, Nat.mul_succ]
    omega

end Chains

/-! ## Single steps -/

theorem length_holeRuns_some (holes : List ScrapEntry) (run : Nat × Nat) :
    (holeRuns holes (some run)).length ≤ holes.length + 1 := by
  induction holes generalizing run with
  | nil => simp [holeRuns]
  | cons hole holes inductionHypothesis =>
    rw [holeRuns]
    split
    · exact le_trans (inductionHypothesis _) (Nat.le_succ _)
    · exact Nat.succ_le_succ (inductionHypothesis _)

/-- No more than one `pread` for each hole. -/
theorem length_holeRuns (holes : List ScrapEntry) : (holeRuns holes none).length ≤ holes.length := by
  cases holes with
  | nil => simp [holeRuns]
  | cons hole holes => exact length_holeRuns_some holes _

theorem calls_again {lens : List Nat} {st next : PwritevState} {result : IoResult}
    (again : pwritevAfter lens st result = .again next) :
    next.calls lens.length < st.calls lens.length := by
  rcases pwritevAfter_again again with ⟨same, less, -⟩ | ⟨w, -, complete, ahead, inside⟩
  · simp only [PwritevState.calls, same]
    omega
  · simp only [ahead] at inside ⊢
    simp only [PwritevState.calls, ioMaxStall]
    omega

variable {cfg : Config} {s s' : Engine n} {label : Label n}

theorem budget_stage1 (sound : Sound cfg s) (move : Stage1Move cfg s label s') :
    s'.budget cfg < s.budget cfg := by
  have calm := sound.load.calm1
  have idle := sound.load.not_busy
  cases move with
  | inspectBusy position free holes busy => simp [idle] at busy
  | busyPush position | wake position => simp [position, Stage1.deferred] at calm
  | pop position queue =>
    simp only [Engine.budget, position, queue, Stage1.cost, List.length_cons, Nat.mul_succ]
    omega
  | forwardPush position | fillPush position =>
    simp only [Engine.budget, position, Stage1.cost, List.length_append, List.length_singleton,
      Nat.mul_succ]
    omega
  | @inspectHoles p position free holes idle =>
    have bound : (scrapPageHoleRanges (s.pages p) (cfg.maxEntries + 1)).length ≤
        cfg.maxEntries + 1 :=
      le_trans (length_holeRangesFrom _ _ _ _)
        (Nat.succ_le_succ (sound.ready.wellFormed p).fits)
    simp only [Engine.budget, position, Stage1.cost, fillCost]
    omega
  | @readStart p holes position =>
    have bound := length_holeRuns holes
    simp only [Engine.budget, position, Stage1.cost]
    omega
  | exit position | inspectFull position | forwardEnter position | guardPass position
  | readEnd position | readFailed position | fill position | drop position | dropDec position
  | fillEnter position | preadOk position | preadFail position =>
    simp only [Engine.budget, position, Stage1.cost, fillCost, List.length_nil, List.length_cons]
    omega

theorem budget_stage2 (sound : Sound cfg s) (move : Stage2Move s label s') :
    s'.budget cfg < s.budget cfg := by
  have calm := sound.load.calm2
  have idle := sound.load.not_busy
  cases move with
  | poppedBusy position busy => simp [idle] at busy
  | busyPush position | wake position => simp [position, Stage2.deferred] at calm
  | pop position queue | collectTake position room queue =>
    simp only [Engine.budget, position, queue, Stage2.cost, List.length_cons, Nat.mul_succ]
    omega
  | pushBack position =>
    simp only [Engine.budget, position, Stage2.cost, List.length_append, List.length_singleton,
      List.length_nil, Nat.mul_succ]
    omega
  | @unlink done p todo position =>
    -- The chain gets shorter, and with it what is left for the writers and for the walk.
    have shrinks := sublist_of_eraseP s.buckets (piHash (s.pages p).base)
      fun q => s.addr q == s.addr p
    have writers := sum_budget_mono cfg s.fg shrinks
    have walk := s.closer.cost_mono cfg shrinks
    simp only [Engine.budget, position, Stage2.cost, List.length_cons]
    omega
  | @pwritev batch st result position fits after outcome =>
    cases after with
    | again next =>
      have fewer := calls_again outcome.symm
      rw [List.length_map] at fewer
      simp only [Engine.budget, position, afterPwritev, Stage2.cost]
      omega
    | done total =>
      simp only [Engine.budget, position, afterPwritev, Stage2.cost]
      omega
  | @writeStart batch position =>
    simp only [Engine.budget, position, Stage2.cost, PwritevState.calls, PwritevState.init,
      ioMaxStall]
    omega
  | exit position | poppedGo position | collectStop position | checkReady position
  | checkNotReady position | detachDone position | unlinkSkip position | tag position
  | written position | latch position | freeDone position | free position | leave position
  | decrement position =>
    simp only [Engine.budget, position, Stage2.cost, flushCost, List.length_append,
      List.length_cons, List.length_nil]
    omega

theorem budget_closer (sound : Sound cfg s) (move : CloserMove s label s') :
    s'.budget cfg < s.budget cfg := by
  cases move with
  | firstDrain position =>
    have head := cost_sweep_head cfg s.buckets s.ioErr (show 0 < piBuckets by decide)
    have price : Closer.firstDrain.cost cfg s.buckets = walkCost cfg s.buckets 0 + 11 := rfl
    simp only [Engine.budget, position]
    omega
  | @sweepBucket err bucket position more =>
    have head := cost_sweep_head cfg s.buckets err more
    have price : (Closer.sweep err bucket none).cost cfg s.buckets =
        walkCost cfg s.buckets (bucket + 1) + 10 := rfl
    simp only [Engine.budget, position]
    omega
  | @sweepLock err bucket p position alive free page enqueue chosen =>
    have price : (Engine.sweepAfter err bucket p enqueue).cost cfg s.buckets <
        (Closer.sweep err bucket (some p)).cost cfg s.buckets := by
      cases enqueue with
      | none => simp only [Engine.sweepAfter, Closer.cost, sweepCost]; omega
      | some e =>
        have bound := e.cost_le cfg
        simp only [Engine.sweepAfter, Closer.cost, sweepCost]
        omega
    simp only [Engine.budget, position]
    omega
  | partialPush position | fullPush position =>
    simp only [Engine.budget, position, Closer.cost, Enqueue.cost, List.length_append,
      List.length_singleton, Nat.mul_succ]
    omega
  | @sweepNext err bucket p position alive =>
    have once : (s.buckets bucket).Nodup := sound.owned.chain bucket
    have onward := cost_sweep_next cfg err p once
    have price : (Closer.sweepNext err bucket p).cost cfg s.buckets =
        aheadCost cfg s.buckets bucket p + 11 := rfl
    rw [head?_after] at onward
    simp only [Engine.budget, position, Engine.nextLink]
    omega
  | destroy position =>
    have shrinks : ∀ b, List.Sublist [] (s.buckets b) := fun b => List.nil_sublist _
    have writers := sum_budget_mono cfg s.fg shrinks
    simp only [Engine.budget, position, Closer.cost]
    omega
  | close position | disarm position | sweepDone position | sweepFault position
  | partialInc position | fullInc position | fullEnter position | sweepUnlock position
  | sweepNextFault position | secondDrain position | stopping position | shutdown1 position
  | join1 position | shutdown2 position | join2 position | lastCheck position
  | closeFd position =>
    simp only [Engine.budget, position, Closer.cost, Enqueue.cost]
    omega

/-! ## Steps of the writers -/

/-- A writer moves on and leaves its chunk and its page as they are. -/
theorem Fg.budget_lt {f f' : Fg} (chains : Nat → List PageId)
    (candidate : f'.candidate = f.candidate) (remaining : f'.remaining = f.remaining)
    (cheaper : f'.cost cfg < f.cost cfg) : f'.budget n cfg chains < f.budget n cfg chains := by
  simp only [Fg.budget, candidate, remaining]
  omega

theorem Fg.budget_lt_of_committed {call : Call} {done : Nat} {pc pc' : ChunkPc}
    (chains : Nat → List PageId) (after : pc'.committed = true) (before : pc.committed = true)
    (cheaper : pc'.cost cfg < pc.cost cfg) :
    (Fg.scrap call done pc').budget n cfg chains < (Fg.scrap call done pc).budget n cfg chains := by
  refine Fg.budget_lt chains ?_ ?_ cheaper
  · simp only [Fg.candidate, ChunkPc.candidate, after, before, if_true]
  · simp only [Fg.remaining, after, before]

theorem Fg.budget_lt_of_uncommitted {call : Call} {done : Nat} {pc pc' : ChunkPc}
    (chains : Nat → List PageId) (after : pc'.committed = false) (before : pc.committed = false)
    (target : pc'.target = pc.target) (cheaper : pc'.cost cfg < pc.cost cfg) :
    (Fg.scrap call done pc').budget n cfg chains < (Fg.scrap call done pc).budget n cfg chains := by
  refine Fg.budget_lt chains ?_ ?_ cheaper
  · simp only [Fg.candidate, ChunkPc.candidate, after, before, target]
  · simp only [Fg.remaining, after, before]

/-- A call returns. -/
theorem Fg.budget_idle_lt {f : Fg} (chains : Nat → List PageId) (candidate : f.candidate = none)
    (positive : 0 < f.cost cfg) : Fg.idle.budget n cfg chains < f.budget n cfg chains := by
  have linked : linkedBut chains none ≤ linkedBut chains none + (n + 1) * f.remaining :=
    Nat.le_add_right _ _
  have pass := Nat.mul_le_mul_left (passCost cfg) linked
  have idle : Fg.idle.budget n cfg chains = passCost cfg * linkedBut chains none := by
    simp [Fg.budget, Fg.candidate, Fg.remaining, Fg.cost]
  rw [idle, Fg.budget, candidate]
  omega

/-- Bytes that are delivered pay for a pass of every writer and one more. -/
theorem pass_of_remaining (n : Nat) (cfg : Config) (linked : Nat) {before after : Nat}
    (less : after < before) :
    passCost cfg * (linked + (n + 1) * after) + passCost cfg * (n + 1) ≤
      passCost cfg * (linked + (n + 1) * before) := by
  rw [← Nat.mul_add]
  refine Nat.mul_le_mul_left _ ?_
  have product := Nat.mul_le_mul_left (n + 1) (Nat.succ_le_of_lt less)
  rw [Nat.mul_succ] at product
  omega

/-- A writer moves, and nothing else that counts. -/
theorem budget_fg_quiet {t : Fin n} {f f' : Fg} (position : s.fg t = f)
    (fg : s'.fg = update s.fg t f')
    (same : s'.buckets = s.buckets ∧ s'.q1 = s.q1 ∧ s'.q2 = s.q2 ∧ s'.s1 = s.s1 ∧ s'.s2 = s.s2 ∧
      s'.closer = s.closer)
    (cheaper : f'.budget n cfg s.buckets < f.budget n cfg s.buckets) :
    s'.budget cfg < s.budget cfg := by
  obtain ⟨buckets, q1, q2, s1, s2, closer⟩ := same
  have exchange := weigh_update (fun f => Fg.budget n cfg s.buckets f) s.fg t f'
  simp only [position] at exchange
  simp only [Engine.budget, fg, buckets, q1, q2, s1, s2, closer]
  omega

/-- A push hands the price of the page over to the queue. -/
theorem budget_pushed (n : Nat) (cfg : Config) (chains : Nat → List PageId) (call : Call)
    (done : Nat) (p : PageId) (after : After) :
    (Fg.scrap call done (.unlock p after)).budget n cfg chains + fillCost cfg <
        (Fg.scrap call done (.enqueue p .partialPush after)).budget n cfg chains ∧
      (Fg.scrap call done (.unlock p after)).budget n cfg chains + flushCost <
        (Fg.scrap call done (.enqueue p .fullPush after)).budget n cfg chains := by
  have remaining : ∀ e, (Fg.scrap call done (.enqueue p e after)).remaining =
      (Fg.scrap call done (.unlock p after)).remaining := fun e => by cases after <;> rfl
  have candidate : ∀ e, (Fg.scrap call done (.enqueue p e after)).candidate =
      (Fg.scrap call done (.unlock p after)).candidate := fun e => by cases after <;> rfl
  simp only [Fg.budget, remaining, candidate]
  simp only [Fg.cost, ChunkPc.cost, Enqueue.cost]
  omega

/-- A writer finds a linked page: it will not find it a second time. -/
theorem budget_lookup {call : Call} {done : Nat} {p : PageId} {b : Nat} (bucket : b < piBuckets)
    (linked : p ∈ s.buckets b) :
    (Fg.scrap call done (.lockPage p)).budget n cfg s.buckets <
      (Fg.scrap call done .lookup).budget n cfg s.buckets := by
  have fewer := linkedBut_some_lt bucket linked
  have pass := Nat.mul_le_mul_left (passCost cfg) (Nat.succ_le_of_lt
    (Nat.add_lt_add_right fewer ((n + 1) * (call.size - done))))
  have price : fillCost cfg + 9 ≤ passCost cfg := by
    simp only [passCost]
    omega
  simp only [Fg.budget, Fg.candidate, ChunkPc.candidate, ChunkPc.committed, ChunkPc.target,
    Fg.remaining, Fg.cost, ChunkPc.cost, Bool.false_eq_true, if_false]
  rw [Nat.mul_succ] at pass
  omega

/-- A merged chunk: the writer is done with its page, which may stay in the index. -/
theorem budget_merged {call : Call} {done : Nat} {p : PageId} {pc : ChunkPc}
    (owned : s.custody.Ownership) (more : done < call.size) (committed : pc.committed = true)
    (cheaper : pc.cost cfg < fillCost cfg + 8) :
    (Fg.scrap call done pc).budget n cfg s.buckets <
      (Fg.scrap call done (.held p false)).budget n cfg s.buckets := by
  have positive := Call.chunk_pos more
  have back : linkedBut s.buckets none ≤ linkedBut s.buckets (some p) + 1 :=
    linkedBut_none_le owned.chain fun b linked => (owned.indexed b p linked).2.symm
  have pays := pass_of_remaining n cfg (linkedBut s.buckets (some p))
    (show call.size - (done + call.chunk done) < call.size - done by omega)
  have pass : passCost cfg *
      (linkedBut s.buckets none + (n + 1) * (call.size - (done + call.chunk done))) ≤
      passCost cfg * (linkedBut s.buckets (some p) +
        (n + 1) * (call.size - (done + call.chunk done))) + passCost cfg * (n + 1) := by
    rw [← Nat.mul_add]
    exact Nat.mul_le_mul_left _ (by omega)
  have moved : (Fg.scrap call done pc).budget n cfg s.buckets = passCost cfg *
      (linkedBut s.buckets none + (n + 1) * (call.size - (done + call.chunk done))) +
        pc.cost cfg := by
    simp [Fg.budget, Fg.candidate, ChunkPc.candidate, committed, Fg.remaining, Fg.cost]
  have held : (Fg.scrap call done (.held p false)).budget n cfg s.buckets = passCost cfg *
      (linkedBut s.buckets (some p) + (n + 1) * (call.size - done)) + (fillCost cfg + 8) := by
    simp [Fg.budget, Fg.candidate, ChunkPc.candidate, ChunkPc.committed, ChunkPc.target,
      Fg.remaining, Fg.cost, ChunkPc.cost]
  omega

/-- The page a writer turned away from is in no chain once it is detached. -/
theorem not_mem_of_detached (sound : Sound cfg s) (aimed : Aimed s) {t : Fin n} {call : Call}
    {done : Nat} {p : PageId} (position : s.fg t = .scrap call done (.detach p)) (b : Nat) :
    p ∉ update s.buckets (piHash (call.base done))
      ((s.buckets (piHash (call.base done))).eraseP fun q => s.addr q == s.addr p) b := by
  have base : (s.pages p).base = call.base done := aimed t call done _ p position rfl
  by_cases same : b = piHash (call.base done)
  · subst same
    rw [Function.update_self]
    by_cases linked : p ∈ s.buckets (piHash (call.base done))
    -- A linked page is alive, and no other page that is has its address.
    · refine not_mem_eraseP (sound.owned.chain _) (by simp) fun q member hit => ?_
      exact sound.owned.address q p (sound.owned.indexed _ q member).1
        (sound.owned.indexed _ p linked).1 (show s.addr q = s.addr p by simpa using hit)
    · exact fun still => linked (List.mem_of_mem_eraseP still)
  · rw [Function.update_of_ne same]
    intro linked
    exact same ((sound.owned.indexed b p linked).2.symm.trans (congrArg piHash base))

theorem Closer.eq_running {closer : Closer} (phase : closer.phase = 0) : closer = .running := by
  cases closer <;> simp [Closer.phase] at phase ⊢

/-- A new page: every writer may meet it, and so may the walk, but a chunk is as good as merged. -/
theorem budget_alloc {t : Fin n} {call : Call} {done : Nat} {k : Nat}
    (position : s.fg t = .scrap call done .lookup)
    (fg : s'.fg = update s.fg t (.scrap call done (.held s.created true)))
    (buckets : s'.buckets = update s.buckets k (s.created :: s.buckets k))
    (same : s'.q1 = s.q1 ∧ s'.q2 = s.q2 ∧ s'.s1 = s.s1 ∧ s'.s2 = s.s2 ∧ s'.closer = s.closer)
    (running : s.closer = .running) (more : done < call.size) :
    s'.budget cfg < s.budget cfg := by
  obtain ⟨q1, q2, s1, s2, closer⟩ := same
  have positive := Call.chunk_pos more
  have grows : ∀ p, linkedBut (update s.buckets k (s.created :: s.buckets k)) p ≤
      linkedBut s.buckets p + 1 := linkedBut_cons k s.created
  have walk : walkCost cfg (update s.buckets k (s.created :: s.buckets k)) 0 ≤
      walkCost cfg s.buckets 0 + sweepCost cfg := walkCost_cons k s.created
  rw [← buckets] at grows walk
  have writers : ∑ u, (s.fg u).budget n cfg s'.buckets ≤
      ∑ u, (s.fg u).budget n cfg s.buckets + n * passCost cfg := by
    have each : ∀ u ∈ Finset.univ, (s.fg u).budget n cfg s'.buckets ≤
        (s.fg u).budget n cfg s.buckets + passCost cfg := by
      intro u _
      have pass := Nat.mul_le_mul_left (passCost cfg)
        (Nat.add_le_add_right (grows (s.fg u).candidate) ((n + 1) * (s.fg u).remaining))
      rw [Nat.add_right_comm, Nat.mul_succ] at pass
      simp only [Fg.budget]
      omega
    refine le_trans (Finset.sum_le_sum each) ?_
    simp [Finset.sum_add_distrib]
  have exchange := weigh_update (fun f => Fg.budget n cfg s'.buckets f) s.fg t
    (.scrap call done (.held s.created true))
  have pays := pass_of_remaining n cfg (linkedBut s'.buckets none)
    (show call.size - (done + call.chunk done) < call.size - done by omega)
  have held : (Fg.scrap call done (.held s.created true)).budget n cfg s'.buckets = passCost cfg *
      (linkedBut s'.buckets none + (n + 1) * (call.size - (done + call.chunk done))) +
        (fillCost cfg + 8) := by
    simp [Fg.budget, Fg.candidate, ChunkPc.candidate, ChunkPc.committed, Fg.remaining, Fg.cost,
      ChunkPc.cost]
  have looked : (Fg.scrap call done .lookup).budget n cfg s'.buckets = passCost cfg *
      (linkedBut s'.buckets none + (n + 1) * (call.size - done)) + 1 := by
    simp [Fg.budget, Fg.candidate, ChunkPc.candidate, ChunkPc.committed, ChunkPc.target,
      Fg.remaining, Fg.cost, ChunkPc.cost]
  have price : passCost cfg * (n + 1) = n * passCost cfg + (fillCost cfg + sweepCost cfg + 9) := by
    rw [Nat.mul_succ, Nat.mul_comm, passCost]
  simp only [position] at exchange
  simp only [Engine.budget, fg, q1, q2, s1, s2, closer, running, Closer.cost]
  omega

namespace Decision

variable (decision : Decision) (p : PageId)

theorem target_next : (decision.next p).target = some p := by
  rw [next]
  split <;> rfl

theorem committed_next : (decision.next p).committed = decide (decision.after = .ret) := by
  rw [next]
  split <;> cases decision.after <;> rfl

theorem cost_next (cfg : Config) : (decision.next p).cost cfg < fillCost cfg + 8 := by
  rw [next]
  split
  · next e _ =>
    have bound := e.cost_le cfg
    simp only [ChunkPc.cost]
    omega
  · simp only [ChunkPc.cost]
    omega

end Decision

/-- The first chunk of a page is never turned away. -/
theorem ret_of_fresh (owned : s.custody.Ownership) {t : Fin n} {call : Call} {done : Nat}
    {p : PageId} {decision : Decision} (position : s.fg t = .scrap call done (.held p true))
    (decided : decision = chunkDecision cfg (s.pages p) true (call.cells done) (call.intra done)
      (call.chunk done)) : decision.after ≠ .retry := by
  have rights := owned.rights (.fg t)
  rw [show s.custody.role (.fg t) = .holds p true from role_at position] at rights
  obtain ⟨-, empty, opened, -⟩ := rights.2.2 rfl
  have accepts : (scrapPageMerge cfg.maxEntries (s.pages p) (call.cells done) (call.intra done)
      (call.chunk done)).1 = .ok := scrapPageMerge_of_empty cfg.maxEntries_pos empty
  have tag : (s.pages p).hdr.tag = .opened := opened
  cases Decided.of_eq decided with
  | seen sealed_ => simp [tag] at sealed_
  | overflow _ rejected | overflowPush _ rejected => simp [rejected] at accepts
  | full | fullPush | partialPush | stay => simp

theorem budget_fg (sound : Sound cfg s) (aimed : Aimed s) (own : ∀ t call, label ≠ .call t call)
    (move : FgMove cfg s label s') : s'.budget cfg < s.budget cfg := by
  have running := Closer.eq_running (sound.phases.running move)
  cases move with
  | callZero | callDirect | callScrap => exact absurd rfl (own _ _)
  | gatePass position | gatePark position | parkedPass position | lockPage position
  | unlockMore position | unlockRetry position =>
    refine budget_fg_quiet position rfl ⟨rfl, rfl, rfl, rfl, rfl, rfl⟩ (Fg.budget_lt _ rfl rfl ?_)
    simp only [Fg.cost, ChunkPc.cost]
    omega
  | @partialInc t call done p after position | @fullInc t call done p after position
  | @fullEnter t call done p after position =>
    refine budget_fg_quiet position rfl ⟨rfl, rfl, rfl, rfl, rfl, rfl⟩ (Fg.budget_lt _ ?_ ?_ ?_)
    · cases after <;> rfl
    · cases after <;> rfl
    · simp only [Fg.cost, ChunkPc.cost, Enqueue.cost]
      omega
  | @partialPush t call done p after position | @fullPush t call done p after position =>
    have exchange := weigh_update (fun f => Fg.budget n cfg s.buckets f) s.fg t
      (.scrap call done (.unlock p after))
    have price := budget_pushed n cfg s.buckets call done p after
    simp only [position] at exchange
    simp only [Engine.budget, List.length_append, List.length_singleton, Nat.mul_succ]
    omega
  | @lookupFound t call done p position free found =>
    have linked : p ∈ s.buckets (piHash (call.base done)) := List.mem_of_find?_eq_some found
    exact budget_fg_quiet position rfl ⟨rfl, rfl, rfl, rfl, rfl, rfl⟩
      (budget_lookup (piHash_lt _) linked)
  | oomPage position | oomDirect position | unlockDone position | pwrite position =>
    refine budget_fg_quiet position rfl ⟨rfl, rfl, rfl, rfl, rfl, rfl⟩ ?_
    exact Fg.budget_idle_lt _ rfl (by simp [Fg.cost, ChunkPc.cost])
  | @alloc t call done address zone position free absent unused =>
    have more := sound.ready.progress t call done _ position
    exact budget_alloc position rfl rfl ⟨rfl, rfl, rfl, rfl, rfl⟩ running more
  | @decide t call done p created position decision decided =>
    refine budget_fg_quiet position rfl ⟨rfl, rfl, rfl, rfl, rfl, rfl⟩ ?_
    have more := sound.ready.progress t call done _ position
    have target := decision.target_next p
    have cheaper := decision.cost_next p cfg
    cases after : decision.after with
    | ret =>
      have committed : (decision.next p).committed = true := by simp [decision.committed_next, after]
      cases created with
      | false => exact budget_merged sound.owned more committed cheaper
      -- Counted as merged since the page was created.
      | true => exact Fg.budget_lt_of_committed _ committed rfl cheaper
    | retry =>
      have uncommitted : (decision.next p).committed = false := by
        simp [decision.committed_next, after]
      cases created with
      | false => exact Fg.budget_lt_of_uncommitted _ uncommitted rfl target cheaper
      | true => exact absurd after (ret_of_fresh sound.owned position decided)
  | @detach t call done p position free =>
    -- The page is in no chain any more, so there is one page less to turn away from.
    have absent := linkedBut_of_absent (not_mem_of_detached sound aimed position)
    have shrinks := sublist_of_eraseP s.buckets (piHash (call.base done))
      fun q => s.addr q == s.addr p
    generalize update s.buckets (piHash (call.base done)) _ = chains at absent shrinks ⊢
    have exchange := weigh_update (fun f => Fg.budget n cfg chains f) s.fg t
      (.scrap call done .gate)
    have writers := sum_budget_mono cfg s.fg shrinks
    have walk := s.closer.cost_mono cfg shrinks
    have price : (Fg.scrap call done .gate).budget n cfg chains <
        (Fg.scrap call done (.detach p)).budget n cfg chains := by
      simp [Fg.budget, Fg.candidate, ChunkPc.candidate, ChunkPc.committed, ChunkPc.target,
        Fg.remaining, Fg.cost, ChunkPc.cost, absent]
    simp only [position] at exchange
    simp only [Engine.budget]
    omega

/-- Every step but a new `nox_write` uses up some of the budget. -/
theorem budget_step (sound : Sound cfg s) (aimed : Aimed s) (own : ∀ t call, label ≠ .call t call)
    (move : Move cfg s label s') : s'.budget cfg < s.budget cfg := by
  cases move with
  | fg move => exact budget_fg sound aimed own move
  | stage1 move => exact budget_stage1 sound move
  | stage2 move => exact budget_stage2 sound move
  | closer move => exact budget_closer sound move

end NoxDB

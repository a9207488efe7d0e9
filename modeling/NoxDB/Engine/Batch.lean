import NoxDB.Engine.Assembly
import NoxDB.IoDirect.Gather

/-! # Batches

`stage2_collect` on its own: a collector that takes pages off the head of a queue while other
threads push to its tail, over any pages and any content of the queue.  The queue never reorders,
so the batch and what is left of the queue are together what was there and what was pushed
(`Gathering`).  A gather write of such a batch is one positioned write of its zones in order,
and so is writing them back one by one (`writebackAll_file`).  At the end, what Stage-2 of the
engine does between two writes is a run of the collector.
-/

namespace NoxDB

open Library.Runs

/-! ## The collector -/

section Collector

variable {P : Type}

/-- `scrap_page_is_full(nx) || nx->hdr.tag == NOX_TAG_FULL` -/
def assembled (page : ScrapPage UInt8) : Bool := scrapPageIsFull page || page.hdr.tag == .full

/-- Positions inside `stage2_collect`. -/
inductive Collector (P : Type) where
  | look (batch : List P)
  | check (batch : List P) (next : P)
  | putBack (batch : List P) (next : P)
  | returned (batch : List P)
deriving DecidableEq

/-- The collector, the queue, and what other threads have pushed to it so far. -/
structure Collect (P : Type) where
  pc : Collector P
  queue : List P
  pushed : List P
deriving DecidableEq

/-- A push by another thread, or the collector's next step. -/
inductive CollectLabel (P : Type) where
  | push (p : P)
  | collector

/-- `nox_queue_pop_if_base` -/
def popIfBase (base : P → Nat) (want : Nat) : List P → Option (P × List P)
  | p :: rest => if base p = want then some (p, rest) else none
  | [] => none

theorem popIfBase_eq {base : P → Nat} {want : Nat} {queue rest : List P} {p : P}
    (popped : popIfBase base want queue = some (p, rest)) : queue = p :: rest := by
  cases queue with
  | nil => simp [popIfBase] at popped
  | cons head tail =>
    simp only [popIfBase] at popped
    split at popped
    · obtain ⟨rfl, rfl⟩ : head = p ∧ tail = rest := by simpa using popped
      rfl
    · contradiction

/-- `want` in `stage2_collect`, for a batch that starts with `first`. -/
def wantFor (base : P → Nat) (first : P) (count : Nat) : Nat := (base first + count * zoneSize) % word

/-- One step of `stage2_collect` on pages that start at `base` and are fit for Stage-2 when
`ready`. -/
def collectStep (base : P → Nat) (ready : P → Bool) (first : P) (s : Collect P) :
    CollectLabel P → Option (Collect P)
  | .push p => some { s with queue := s.queue ++ [p], pushed := s.pushed ++ [p] }
  | .collector =>
    match s.pc with
    | .look batch =>
      if batch.length < pwritevMaxIov then
        match popIfBase base (wantFor base first batch.length) s.queue with
        | some (next, rest) => some { s with pc := .check batch next, queue := rest }
        | none => some { s with pc := .returned batch }
      else
        some { s with pc := .returned batch }
    | .check batch next =>
      if ready next then some { s with pc := .look (batch ++ [next]) }
      else some { s with pc := .putBack batch next }
    | .putBack batch next => some { s with pc := .returned batch, queue := s.queue ++ [next] }
    | .returned _ => none

/-- `stage2_collect` on entry, with `first` just popped. -/
def Collect.start (first : P) (queue : List P) : Collect P := ⟨.look [first], queue, []⟩

/-- The collector's own steps. -/
def CollectLabel.cost : CollectLabel P → Nat
  | .push _ => 0
  | .collector => 1

/-- Only assembled pages are pushed. -/
def CollectLabel.Fit (ready : P → Bool) : CollectLabel P → Prop
  | .push p => ready p = true
  | .collector => True

variable {base : P → Nat} {ready : P → Bool} {first : P} {queue : List P}

/-- The bases of a batch follow one another. -/
def Contiguous (base : P → Nat) (first : P) (batch : List P) : Prop :=
  ∀ k p, batch[k]? = some p → base p = wantFor base first k

/-- Why the collector stops at the queue it sees: the limit, an empty queue, or a head that does
not continue the batch. -/
def Stops (base : P → Nat) (first : P) (batch queue : List P) : Prop :=
  batch.length = pwritevMaxIov ∨ queue = [] ∨
    ∃ head rest, queue = head :: rest ∧ base head ≠ wantFor base first batch.length

/-- What holds at every point of a collection. -/
structure Gathering (base : P → Nat) (ready : P → Bool) (first : P) (start : List P)
    (s : Collect P) : Prop where
  fit : ∀ p ∈ s.queue, ready p = true
  position : match s.pc with
    | .look batch =>
      batch ++ s.queue = first :: start ++ s.pushed ∧ Contiguous base first batch ∧
        1 ≤ batch.length ∧ batch.length ≤ pwritevMaxIov
    | .check batch next =>
      batch ++ next :: s.queue = first :: start ++ s.pushed ∧
        Contiguous base first (batch ++ [next]) ∧ 1 ≤ batch.length ∧
        batch.length < pwritevMaxIov ∧ ready next = true
    | .putBack _ _ => False
    | .returned batch =>
      batch ++ s.queue = first :: start ++ s.pushed ∧ Contiguous base first batch ∧
        1 ≤ batch.length ∧ batch.length ≤ pwritevMaxIov

theorem Contiguous.push {batch : List P} {next : P} (contiguous : Contiguous base first batch)
    (follows : base next = wantFor base first batch.length) :
    Contiguous base first (batch ++ [next]) := by
  intro k p found
  rcases lt_or_ge k batch.length with early | late
  · exact contiguous k p (by rwa [List.getElem?_append_left early] at found)
  · rw [List.getElem?_append_right late] at found
    obtain ⟨zero, rfl⟩ : k - batch.length = 0 ∧ next = p := by
      cases distance : k - batch.length with
      | zero => simpa [distance] using found
      | succ d => simp [distance] at found
    obtain rfl : k = batch.length := by omega
    exact follows

theorem Gathering.start (inRange : base first < word) (fit : ∀ p ∈ queue, ready p = true) :
    Gathering base ready first queue (.start first queue) where
  fit := fit
  position := by
    refine ⟨by simp [Collect.start], ?_, le_rfl, by simp [pwritevMaxIov]⟩
    intro k p found
    cases k with
    | zero =>
      obtain rfl : first = p := by simpa using found
      simp [wantFor, Nat.mod_eq_of_lt inRange]
    | succ k => simp at found

/-- One step of the collection, by the collector or by another thread. -/
theorem Gathering.step {s s' : Collect P} {label : CollectLabel P} {start : List P}
    (gathering : Gathering base ready first start s) (pushes : label.Fit ready)
    (stepped : collectStep base ready first s label = some s') :
    Gathering base ready first start s' := by
  obtain ⟨pc, queue, pushed⟩ := s
  obtain ⟨fit, position⟩ := gathering
  cases label with
  -- A push goes to the tail, behind all the collector looks at.
  | push p =>
    simp only [collectStep, Option.some.injEq] at stepped
    subst stepped
    have fit' : ∀ q ∈ queue ++ [p], ready q = true := by
      intro q member
      rcases List.mem_append.mp member with old | new
      · exact fit q old
      · exact List.mem_singleton.mp new ▸ pushes
    refine ⟨fit', ?_⟩
    cases pc with
    | look batch =>
      obtain ⟨order, rest⟩ := position
      exact ⟨by rw [← List.append_assoc, order, List.append_assoc], rest⟩
    | check batch next =>
      obtain ⟨order, rest⟩ := position
      refine ⟨?_, rest⟩
      have longer := congrArg (· ++ [p]) order
      simpa using longer
    | putBack batch next => exact position
    | returned batch =>
      obtain ⟨order, rest⟩ := position
      exact ⟨by rw [← List.append_assoc, order, List.append_assoc], rest⟩
  | collector =>
    cases pc with
    | look batch =>
      obtain ⟨order, contiguous, low, high⟩ := position
      simp only [collectStep] at stepped
      -- Out of the loop: the limit, an empty queue, or a head that does not follow.
      by_cases room : batch.length < pwritevMaxIov
      · rw [if_pos room] at stepped
        cases queue with
        | nil =>
          simp only [popIfBase, Option.some.injEq] at stepped
          subst stepped
          exact ⟨fit, order, contiguous, low, high⟩
        | cons next rest =>
          by_cases follows : base next = wantFor base first batch.length
          · simp only [popIfBase, if_pos follows, Option.some.injEq] at stepped
            subst stepped
            exact ⟨fun p member => fit p (List.mem_cons_of_mem _ member), order,
              contiguous.push follows, low, room, fit next List.mem_cons_self⟩
          · simp only [popIfBase, if_neg follows, Option.some.injEq] at stepped
            subst stepped
            exact ⟨fit, order, contiguous, low, high⟩
      · rw [if_neg room, Option.some.injEq] at stepped
        subst stepped
        exact ⟨fit, order, contiguous, low, high⟩
    -- Every page in the queue is assembled, so the put-back branch is never taken.
    | check batch next =>
      obtain ⟨order, contiguous, low, high, fits⟩ := position
      simp only [collectStep, if_pos fits, Option.some.injEq] at stepped
      subst stepped
      refine ⟨fit, ?_, contiguous, ?_, ?_⟩
      · rw [List.append_assoc]
        exact order
      · rw [List.length_append]
        omega
      · rw [List.length_append, List.length_singleton]
        omega
    | putBack batch next => exact position.elim
    | returned batch => simp [collectStep] at stepped

/-- The step in which the collector returns. -/
theorem Gathering.stops {s s' : Collect P} {start batch : List P}
    (gathering : Gathering base ready first start s)
    (stepped : collectStep base ready first s .collector = some s')
    (returned : s'.pc = .returned batch) : s'.queue = s.queue ∧ Stops base first batch s.queue := by
  obtain ⟨pc, queue, pushed⟩ := s
  obtain ⟨fit, position⟩ := gathering
  cases pc with
  | look earlier =>
    obtain ⟨order, contiguous, low, high⟩ := position
    simp only [collectStep] at stepped
    by_cases room : earlier.length < pwritevMaxIov
    · rw [if_pos room] at stepped
      cases queue with
      | nil =>
        simp only [popIfBase, Option.some.injEq] at stepped
        subst stepped
        exact ⟨rfl, .inr (.inl rfl)⟩
      | cons next rest =>
        by_cases follows : base next = wantFor base first earlier.length
        · simp only [popIfBase, if_pos follows, Option.some.injEq] at stepped
          subst stepped
          contradiction
        · simp only [popIfBase, if_neg follows, Option.some.injEq] at stepped
          subst stepped
          obtain rfl : earlier = batch := by simpa using returned
          exact ⟨rfl, .inr (.inr ⟨next, rest, rfl, follows⟩)⟩
    · rw [if_neg room, Option.some.injEq] at stepped
      subst stepped
      obtain rfl : earlier = batch := by simpa using returned
      exact ⟨rfl, .inl (by omega)⟩
  | check earlier next =>
    obtain ⟨order, contiguous, low, high, fits⟩ := position
    simp only [collectStep, if_pos fits, Option.some.injEq] at stepped
    subst stepped
    contradiction
  | putBack earlier next => exact position.elim
  | returned earlier => simp [collectStep] at stepped

/-- The steps the collector has left. -/
def Collector.left : Collector P → Nat
  | .look batch => 2 * (pwritevMaxIov - batch.length) + 1
  | .check batch _ => 2 * (pwritevMaxIov - batch.length)
  | .putBack _ _ => 1
  | .returned _ => 0

/-- The collector waits for nobody. -/
theorem collector_moves {s : Collect P} (inside : ∀ batch, s.pc ≠ .returned batch) :
    (collectStep base ready first s .collector).isSome := by
  obtain ⟨pc, queue, pushed⟩ := s
  cases pc with
  | look batch =>
    simp only [collectStep]
    split
    · split <;> rfl
    · rfl
  | check batch next =>
    simp only [collectStep]
    split <;> rfl
  | putBack batch next => rfl
  | returned batch => exact absurd rfl (inside batch)

/-- Each step of the collector brings it closer to the return, and a push does not touch it. -/
theorem Gathering.left_step {s s' : Collect P} {label : CollectLabel P} {start : List P}
    (gathering : Gathering base ready first start s)
    (stepped : collectStep base ready first s label = some s') :
    s'.pc.left + label.cost ≤ s.pc.left := by
  obtain ⟨pc, queue, pushed⟩ := s
  obtain ⟨fit, position⟩ := gathering
  cases label with
  | push p =>
    simp only [collectStep, Option.some.injEq] at stepped
    subst stepped
    exact le_rfl
  | collector =>
    cases pc with
    -- One step to look and one to check for each page, and one to return.
    | look batch =>
      simp only [collectStep] at stepped
      split at stepped
      · split at stepped
        · cases stepped
          exact le_rfl
        · cases stepped
          exact Nat.succ_le_succ (Nat.zero_le _)
      · cases stepped
        exact Nat.succ_le_succ (Nat.zero_le _)
    | check batch next =>
      obtain ⟨order, contiguous, low, high, fits⟩ := position
      simp only [collectStep, if_pos fits, Option.some.injEq] at stepped
      subst stepped
      simp only [Collector.left, CollectLabel.cost, List.length_append, List.length_singleton]
      omega
    | putBack batch next => exact position.elim
    | returned batch => simp [collectStep] at stepped

/-- A whole collection, whatever is pushed between the collector's steps. -/
theorem Gathering.run {labels : List (CollectLabel P)} {s s' : Collect P} {start : List P}
    (gathering : Gathering base ready first start s) (pushes : ∀ label ∈ labels, label.Fit ready)
    (ran : labels.foldlM (collectStep base ready first) s = some s') :
    Gathering base ready first start s' ∧
      s'.pc.left + (labels.map CollectLabel.cost).sum ≤ s.pc.left := by
  induction labels generalizing s with
  | nil =>
    simp only [List.foldlM_nil, Option.pure_def, Option.some.injEq] at ran
    subst ran
    exact ⟨gathering, le_rfl⟩
  | cons label labels inductionHypothesis =>
    rw [List.foldlM_cons] at ran
    obtain ⟨middle, stepped, rest⟩ := Option.bind_eq_some_iff.mp ran
    have less := gathering.left_step stepped
    obtain ⟨end_, total⟩ := inductionHypothesis
      (gathering.step (pushes label List.mem_cons_self) stepped)
      (fun other among => pushes other (List.mem_cons_of_mem _ among)) rest
    refine ⟨end_, ?_⟩
    rw [List.map_cons, List.sum_cons]
    omega

end Collector

/-! ## Writing a batch -/

section Writeback

/-- The bytes of a data zone. -/
def zoneBytes (page : ScrapPage UInt8) : List UInt8 := (List.range zoneSize).map page.data

theorem length_zoneBytes (page : ScrapPage UInt8) : (zoneBytes page).length = zoneSize := by
  rw [zoneBytes, List.length_map, List.length_range]

/-- `scrap_page_writeback`: whether it returned 0, and the file. -/
def scrapPageWriteback (device : Nat → Nat → Nat → IoResult) (page : ScrapPage UInt8) (file : File) :
    Bool × File :=
  match ioDirectPwriteAll device (zoneBytes page) page.base file with
  | (w, file, _) => (w == zoneSize, file)

/-- `scrap_page_writeback` on one page after another; `devices k` serves the `k`-th of them. -/
def writebackAll (devices : Nat → Nat → Nat → Nat → IoResult) :
    List (ScrapPage UInt8) → File → Bool × File
  | [], file => (true, file)
  | page :: pages, file =>
    match scrapPageWriteback (devices 0) page file with
    | (false, file) => (false, (writebackAll (fun k => devices (k + 1)) pages file).2)
    | (true, file) => writebackAll (fun k => devices (k + 1)) pages file

/-- The gather write of `stage2_loop`: all zones at the base of the first page. -/
def gatherWrite (device : Nat → Nat → Nat → IoResult) (pages : List (ScrapPage UInt8)) (base : Nat)
    (file : File) : Bool × File :=
  match ioDirectPwritevAll device (pages.map zoneBytes) base file with
  | (w, file, _) => (w == (pages.length * zoneSize : Nat), file)

theorem length_zones (pages : List (ScrapPage UInt8)) :
    (pages.map zoneBytes).flatten.length = pages.length * zoneSize := by
  induction pages with
  | nil => simp
  | cons page pages inductionHypothesis =>
    rw [List.map_cons, List.flatten_cons, List.length_append, inductionHypothesis,
      length_zoneBytes, List.length_cons, Nat.succ_mul, Nat.add_comm]

/-- The zones of `pages`, one behind the other from `base` on. -/
def layZones (file : File) (base : Nat) (pages : List (ScrapPage UInt8)) : File :=
  file.pwrite base (pages.map zoneBytes).flatten.length ((pages.map zoneBytes).flatten.getD · 0)

/-- The bases of `pages` follow one another from `base` on. -/
def BasesFrom (base : Nat) (pages : List (ScrapPage UInt8)) : Prop :=
  ∀ k page, pages[k]? = some page → page.base = (base + k * zoneSize) % word

theorem BasesFrom.tail {base : Nat} {page : ScrapPage UInt8} {pages : List (ScrapPage UInt8)}
    (bases : BasesFrom base (page :: pages)) : BasesFrom (base + zoneSize) pages := by
  intro k other found
  rw [bases (k + 1) other (by simpa using found), Nat.succ_mul]
  congr 1
  omega

theorem layZones_cons (file : File) (base : Nat) (page : ScrapPage UInt8)
    (pages : List (ScrapPage UInt8)) :
    layZones (layZones file base [page]) (base + zoneSize) pages =
      layZones file base (page :: pages) := by
  have append := file.pwrite_append base (zoneBytes page) (pages.map zoneBytes).flatten
  rw [length_zoneBytes] at append
  simpa only [layZones, List.map_cons, List.map_nil, List.flatten_cons, List.flatten_nil,
    List.append_nil, length_zoneBytes] using append

theorem gatherWrite_file {device : Nat → Nat → Nat → IoResult}
    (fits : ∀ n offset len, (device n offset len).Fits offset len)
    {pages : List (ScrapPage UInt8)} {base : Nat} {before file : File} (nonempty : pages ≠ [])
    (success : gatherWrite device pages base before = (true, file)) :
    base + pages.length * zoneSize ≤ maxOffset ∧ file = layZones before base pages := by
  rw [gatherWrite] at success
  generalize computed : ioDirectPwritevAll device (pages.map zoneBytes) base before = result
    at success
  obtain ⟨w, after, calls⟩ := result
  simp only [Prod.mk.injEq, beq_iff_eq] at success
  obtain ⟨total, rfl⟩ := success
  have done := file_of_success fits (by simpa using nonempty) computed (by omega)
  exact ⟨length_zones pages ▸ done.1, done.2⟩

theorem scrapPageWriteback_eq (device : Nat → Nat → Nat → IoResult) (page : ScrapPage UInt8)
    (file : File) : scrapPageWriteback device page file = gatherWrite device [page] page.base file := by
  simp [scrapPageWriteback, gatherWrite, ioDirectPwriteAll]

/-- Writing pages with consecutive bases back one by one lays their zones one behind the other. -/
theorem writebackAll_file {devices : Nat → Nat → Nat → Nat → IoResult}
    (fits : ∀ k n offset len, (devices k n offset len).Fits offset len)
    {pages : List (ScrapPage UInt8)} {base : Nat} {before file : File} (inRange : base < word)
    (bases : BasesFrom base pages) (success : writebackAll devices pages before = (true, file)) :
    file = layZones before base pages := by
  induction pages generalizing devices base before with
  -- No page: the empty write changes no byte.
  | nil =>
    simp only [writebackAll, Prod.mk.injEq, true_and] at success
    subst success
    refine File.ext rfl (funext fun x => ?_)
    rw [layZones, File.pwrite_byte, if_neg]
    simp only [List.map_nil, List.flatten_nil, List.length_nil]
    omega
  | cons page pages inductionHypothesis =>
    rw [writebackAll] at success
    generalize computed : scrapPageWriteback (devices 0) page before = result at success
    obtain ⟨ok, middle⟩ := result
    cases ok with
    | false => simp at success
    | true =>
      have here : page.base = base := by
        rw [bases 0 page rfl, Nat.zero_mul, Nat.add_zero, Nat.mod_eq_of_lt inRange]
      rw [scrapPageWriteback_eq, here] at computed
      obtain ⟨bound, rfl⟩ := gatherWrite_file (fits 0) (by simp) computed
      -- The write before ended inside the file, so the next base does not wrap.
      have below : maxOffset < word := by decide
      rw [List.length_singleton, Nat.one_mul] at bound
      rw [inductionHypothesis (fun k => fits (k + 1)) (lt_of_le_of_lt bound below) bases.tail
        success, layZones_cons]

end Writeback

/-- For every content of the queue, all of it assembled, and every interleaving of pushes of
assembled pages: the collector returns after a bounded number of its own steps and is never stuck
before; it stops at the limit, at an empty queue or at a head that does not follow; the batch has
between one and eight pages, it is a front part of the queue's order from the popped page on, its
bases follow one another, and the rest of the queue keeps its order.  One gather write of the
batch at the first base leaves the same file as writing the pages back one after another. -/
theorem batch_invisible {P : Type} (page : P → ScrapPage UInt8) (first : P) (queue : List P)
    (inRange : (page first).base < word) (fit : ∀ p ∈ queue, assembled (page p) = true)
    (labels : List (CollectLabel P)) (pushes : ∀ p, .push p ∈ labels → assembled (page p) = true)
    (s : Collect P)
    (ran : labels.foldlM (collectStep (fun p => (page p).base) (fun p => assembled (page p)) first)
      (Collect.start first queue) = some s) :
    (labels.map CollectLabel.cost).sum ≤ 2 * pwritevMaxIov - 1 ∧
    ((∃ batch, s.pc = .returned batch) ∨
      ∃ s', collectStep (fun p => (page p).base) (fun p => assembled (page p)) first s .collector =
        some s') ∧
    (∀ s' batch,
      collectStep (fun p => (page p).base) (fun p => assembled (page p)) first s .collector =
        some s' → s'.pc = .returned batch →
      s'.queue = s.queue ∧ (batch.length = pwritevMaxIov ∨ s.queue = [] ∨
        ∃ head rest, s.queue = head :: rest ∧
          (page head).base ≠ ((page first).base + batch.length * zoneSize) % word)) ∧
    ∀ batch, s.pc = .returned batch →
      1 ≤ batch.length ∧ batch.length ≤ pwritevMaxIov ∧
      batch ++ s.queue = first :: queue ++ s.pushed ∧
      (∀ k p, batch[k]? = some p →
        (page p).base = ((page first).base + k * zoneSize) % word) ∧
      ∀ device devices before gathered sequential,
        (∀ n offset len, (device n offset len : IoResult).Fits offset len) →
        (∀ k n offset len, (devices k n offset len : IoResult).Fits offset len) →
        gatherWrite device (batch.map page) (page first).base before = (true, gathered) →
        writebackAll devices (batch.map page) before = (true, sequential) →
        gathered = sequential ∧
          ∀ k p, batch[k]? = some p → (page p).base = (page first).base + k * zoneSize := by
  have fits : ∀ label ∈ labels, label.Fit fun p => assembled (page p) := by
    intro label among
    cases label with
    | push p => exact pushes p among
    | collector => trivial
  have start : Gathering (fun p => (page p).base) (fun p => assembled (page p)) first queue
    (.start first queue) := .start inRange fit
  obtain ⟨gathering, cost⟩ := start.run fits ran
  refine ⟨?_, ?_, fun s' batch stepped returned => gathering.stops stepped returned,
    fun batch returned => ?_⟩
  -- The measure at the pop bounds the collector's own steps.
  · have whole : (Collect.start first queue).pc.left = 2 * pwritevMaxIov - 1 := rfl
    omega
  · by_cases done : ∃ batch, s.pc = .returned batch
    · exact .inl done
    · exact .inr (Option.isSome_iff_exists.mp
        (collector_moves fun batch here => done ⟨batch, here⟩))
  -- The rest is the invariant at the return, and the two ways to write lay the same zones.
  · have position := gathering.position
    rw [returned] at position
    obtain ⟨order, contiguous, low, high⟩ := position
    refine ⟨low, high, order, contiguous, ?_⟩
    intro device devices before gathered sequential deviceFits devicesFit gathers writes
    have nonempty : batch ≠ [] := List.ne_nil_of_length_pos low
    have bases : BasesFrom (page first).base (batch.map page) := by
      intro k other found
      rw [List.getElem?_map, Option.map_eq_some_iff] at found
      obtain ⟨p, here, rfl⟩ := found
      exact contiguous k p here
    obtain ⟨bound, whole⟩ := gatherWrite_file deviceFits (by simpa using nonempty) gathers
    refine ⟨whole.trans (writebackAll_file devicesFit inRange bases writes).symm, ?_⟩
    intro k p found
    have inside : k < batch.length := (List.getElem?_eq_some_iff.mp found).1
    have wrapped : (page p).base = ((page first).base + k * zoneSize) % word := contiguous k p found
    -- A gather write that succeeds ends inside the file: the bases do not wrap.
    rw [wrapped, Nat.mod_eq_of_lt]
    rw [List.length_map] at bound
    have scaled : k * zoneSize ≤ batch.length * zoneSize := Nat.mul_le_mul_right _ inside.le
    have below : maxOffset < word := by decide
    omega

/-- A device that takes all it is asked to write inside the file. -/
def fastDevice (_ offset len : Nat) : IoResult := .ok (if offset + len ≤ maxOffset then len else 0)

theorem fastDevice_fits (n offset len : Nat) : (fastDevice n offset len).Fits offset len := by
  simp only [fastDevice, IoResult.Fits, IoResult.landed]
  split <;> omega

theorem gatherWrite_fast {pages : List (ScrapPage UInt8)} {base : Nat} (nonempty : pages ≠ [])
    (inside : base + pages.length * zoneSize < maxOffset) (before : File) :
    ∃ file, gatherWrite fastDevice pages base before = (true, file) := by
  have lengths := length_zones pages
  have count : 0 < pages.length := List.length_pos_iff.mpr nonempty
  have positive : 0 < pages.length * zoneSize := Nat.mul_pos count (by decide)
  have whole : fastDevice 0 base (pages.length * zoneSize) = .ok (pages.length * zoneSize) := by
    rw [fastDevice, if_pos inside.le]
  obtain ⟨file, calls, computed⟩ := @ioDirectPwritevAll_of_whole fastDevice (pages.map zoneBytes)
    base (by rwa [lengths]) (by rwa [lengths]) before
  have small : pages.length * zoneSize % word = pages.length * zoneSize :=
    Nat.mod_eq_of_lt (lt_trans (by omega) (show maxOffset < word by decide))
  refine ⟨file, ?_⟩
  rw [gatherWrite, computed, lengths, ssize, small, if_pos (by omega)]
  simp

/-- A full page of ones at zone `k`. -/
def assembledPage (k : Nat) : ScrapPage UInt8 where
  hdr := ⟨1, 1, .full, [⟨0, zoneSize⟩]⟩
  data := fun _ => 1
  base := k * zoneSize
  inQueue := true
  detached := false

/-- Zones 0 and 1 make a batch although zone 3 is pushed meanwhile; it stays in the queue. -/
theorem batch_invisible_of_push :
    ∃ s : Collect Nat, s.pc = .returned [0, 1] ∧ s.queue = [3] ∧
      ∃ file, gatherWrite fastDevice ([0, 1].map assembledPage) 0 (File.ofBytes 0 fun _ => 0) =
          (true, file) ∧
        writebackAll (fun _ => fastDevice) ([0, 1].map assembledPage) (File.ofBytes 0 fun _ => 0) =
          (true, file) := by
  have result := batch_invisible assembledPage 0 [1] (by decide) (by simp [assembled, assembledPage])
    [.collector, .push 3, .collector, .collector] (by simp [assembled, assembledPage])
    ⟨.returned [0, 1], [3], [3]⟩ (by decide +kernel)
  obtain ⟨-, -, -, atEnd⟩ := result
  obtain ⟨-, -, -, -, files⟩ := atEnd [0, 1] rfl
  obtain ⟨gathered, gathers⟩ := @gatherWrite_fast ([0, 1].map assembledPage) 0 (by simp) (by decide)
    (File.ofBytes 0 fun _ => 0)
  obtain ⟨middle, one⟩ := @gatherWrite_fast [assembledPage 0] 0 (by simp) (by decide)
    (File.ofBytes 0 fun _ => 0)
  obtain ⟨sequential, two⟩ := @gatherWrite_fast [assembledPage 1] zoneSize (by simp) (by decide)
    middle
  have writes : writebackAll (fun _ => fastDevice) ([0, 1].map assembledPage)
      (File.ofBytes 0 fun _ => 0) = (true, sequential) := by
    have base : (assembledPage 1).base = zoneSize := Nat.one_mul _
    have start : (assembledPage 0).base = 0 := Nat.zero_mul _
    simp only [List.map_cons, List.map_nil, writebackAll, scrapPageWriteback_eq, base, start, one,
      two]
  have same := files fastDevice (fun _ => fastDevice) _ gathered sequential fastDevice_fits
    (fun _ => fastDevice_fits) gathers writes
  exact ⟨⟨.returned [0, 1], [3], [3]⟩, rfl, rfl, gathered, gathers, same.1 ▸ writes⟩

/-! ## Stage-2 of the engine -/

section Engine

variable {n : Nat} {cfg : Config} {s s' : Engine n} {label : Label n}

/-- Where Stage-2 of the engine is inside `stage2_collect`. -/
def Stage2.collector : Stage2 → Option (Collector PageId)
  | .collect batch => some (.look batch)
  | .check batch next => some (.check batch next)
  | .detaching [] batch => some (.returned batch)
  | _ => none

/-- Stage-2 has not left `stage2_collect`. -/
def Stage2.Collecting : Stage2 → Prop
  | .collect _ | .check _ _ => True
  | _ => False

/-- The bases of the pages there are. -/
def Agrees (base : PageId → Nat) (s : Engine n) : Prop := ∀ p < s.created, base p = (s.pages p).base

/-- Who is not Stage-2 can at most push to Queue-2. -/
theorem queue2_of_others (move : Move cfg s label s') :
    Stage2Move s label s' ∨
      (s'.s2 = s.s2 ∧ (s'.q2 = s.q2 ∨ ∃ p, s'.q2 = s.q2 ++ [p])) := by
  cases move with
  | stage2 move => exact .inl move
  | fg move =>
    right
    cases move with
    | fullPush position => exact ⟨rfl, .inr ⟨_, rfl⟩⟩
    | _ => exact ⟨rfl, .inl rfl⟩
  | stage1 move =>
    right
    cases move with
    | forwardPush position => exact ⟨rfl, .inr ⟨_, rfl⟩⟩
    | fillPush position => exact ⟨rfl, .inr ⟨_, rfl⟩⟩
    | _ => exact ⟨rfl, .inl rfl⟩
  | closer move =>
    right
    cases move with
    | fullPush position => exact ⟨rfl, .inr ⟨_, rfl⟩⟩
    | _ => exact ⟨rfl, .inl rfl⟩

theorem wantedBase_eq {base : PageId → Nat} (agrees : Agrees base s) {first : PageId}
    {batch rest more : List PageId} (nonempty : 1 ≤ batch.length)
    (order : batch ++ rest = first :: more) (current : ∀ p ∈ batch, p < s.created) :
    s.wantedBase batch = wantFor base first batch.length := by
  cases batch with
  | nil => simp at nonempty
  | cons head batch =>
    obtain ⟨rfl, -⟩ := List.cons.inj order
    rw [Engine.wantedBase, wantFor, List.headD_cons, agrees head (current head List.mem_cons_self)]

/-- A step of the engine during a collection is no step or one step of the collector. -/
theorem collector_simulates (sound : Sound cfg s) (move : Move cfg s label s')
    (collecting : s.s2.Collecting) {base : PageId → Nat} (agrees : Agrees base s)
    {first : PageId} {start : List PageId} {c : Collect PageId}
    (gathering : Gathering base (fun _ => true) first start c)
    (position : s.s2.collector = some c.pc) (queue : s.q2 = c.queue) :
    (s'.s2.collector = some c.pc ∧ s'.q2 = c.queue) ∨
      ∃ next c', collectStep base (fun _ => true) first c next = some c' ∧
        s'.s2.collector = some c'.pc ∧ s'.q2 = c'.queue := by
  have current : ∀ p ∈ s.s2.pages ++ s.q2, p < s.created := fun p member =>
    (sound.owned.live p (outgoing_subset_pipe s (List.mem_append_left _ member))).1
  rcases queue2_of_others move with move | ⟨same, stays | ⟨p, grows⟩⟩
  · right
    obtain ⟨pc, waiting, pushed⟩ := c
    simp only at queue
    subst queue
    obtain ⟨-, holds⟩ := gathering
    cases move with
    -- The two sides agree on `want` because no base has changed since the pop.
    | @collectTake batch next rest here room queue wanted =>
      rw [here] at current position
      obtain rfl : Collector.look batch = pc := by simpa [Stage2.collector] using position
      obtain ⟨order, -, low, -⟩ := holds
      have want := wantedBase_eq agrees low order fun p member => current p (by
        simp [Stage2.pages, Stage2.kept, member])
      have known : base next = (s.pages next).base := agrees next (current next (by simp [queue]))
      refine ⟨.collector, ⟨.check batch next, rest, pushed⟩, ?_, rfl, rfl⟩
      simp only [collectStep, if_pos room, queue, popIfBase, known, wanted, want, if_true]
    | @collectStop batch here stop =>
      rw [here] at current position
      obtain rfl : Collector.look batch = pc := by simpa [Stage2.collector] using position
      obtain ⟨order, -, low, -⟩ := holds
      have want := wantedBase_eq agrees low order fun p member => current p (by
        simp [Stage2.pages, Stage2.kept, member])
      refine ⟨.collector, ⟨.returned batch, s.q2, pushed⟩, ?_, rfl, rfl⟩
      simp only [collectStep]
      split
      · next room =>
        cases queue : s.q2 with
        | nil => rfl
        | cons next rest =>
          have known : base next = (s.pages next).base :=
            agrees next (current next (by simp [queue]))
          have differs := stop room next rest queue
          rw [← known, want] at differs
          simp only [popIfBase, if_neg differs]
      · rfl
    | @checkReady batch next here free ready =>
      rw [here] at position
      obtain rfl : Collector.check batch next = pc := by simpa [Stage2.collector] using position
      exact ⟨.collector, _, rfl, rfl, rfl⟩
    -- Not in the engine either: what is in Queue-2 is assembled.
    | checkNotReady here free notReady => simp [sound.ready.ready_of_check here] at notReady
    | pop here | exit here | poppedBusy here | poppedGo here | busyPush here | wake here
    | pushBack here | detachDone here | unlinkSkip here | unlink here | tag here
    | writeStart here | written here | latch here | freeDone here | free here | leave here
    | decrement here | pwritev here => simp [here, Stage2.Collecting] at collecting
  · exact .inl ⟨same ▸ position, stays.trans queue⟩
  · refine .inr ⟨.push p, _, rfl, same ▸ position, ?_⟩
    rw [grows, queue]

/-- Bases are fixed when pages are created, so those of a later state serve an earlier one. -/
theorem Agrees.before (sound : Sound cfg s) (move : Move cfg s label s') {base : PageId → Nat}
    (agrees : Agrees base s') : Agrees base s := by
  intro p old
  rw [agrees p (lt_of_lt_of_le old (created_mono move)), base_stable (sound.refines move) p old]

/-- What the engine does from the pop to the end of `stage2_collect` is a run of the collector on
the content of Queue-2 at the pop, and it detaches what the collector returns. -/
theorem stage2_collects {first : PageId} (sound : Sound cfg s) (placed : Placed s)
    (run : Run (Engine.step cfg) (fun s _ => s.s2.Collecting) s s')
    (popped : s.s2 = .collect [first]) :
    Sound cfg s' ∧ ∀ base, Agrees base s' → Agrees base s ∧ ∃ labels c,
      List.foldlM (collectStep base (fun _ => true) first) (Collect.start first s.q2) labels =
        some c ∧ s'.s2.collector = some c.pc ∧ s'.q2 = c.queue := by
  have current : first < s.created := by
    refine (sound.owned.live first (outgoing_subset_pipe s ?_)).1
    simp [Engine.outgoing, popped, Stage2.pages, Stage2.kept]
  have below : (s.pages first).base < word :=
    lt_of_lt_of_le (Nat.lt_add_of_pos_right (by decide)) (placed first current).2
  induction run with
  | refl =>
    exact ⟨sound, fun base agrees => ⟨agrees, [], _, rfl, by rw [popped]; rfl, rfl⟩⟩
  | @tail middle last label before collecting stepped inductionHypothesis =>
    obtain ⟨known, simulated⟩ := inductionHypothesis
    have move := move_of_step stepped
    refine ⟨known.move move, fun base agrees => ?_⟩
    -- The bases are those of the last state, so the earlier states agree with them too.
    have earlier := agrees.before known move
    obtain ⟨initially, labels, c, ran, position, queue⟩ := simulated base earlier
    have start : Gathering base (fun _ => true) first s.q2 (.start first s.q2) :=
      .start (by rw [initially first current]; exact below) fun _ _ => rfl
    have gathering := (start.run (fun label _ => by cases label <;> trivial) ran).1
    refine ⟨initially, ?_⟩
    rcases collector_simulates known move collecting earlier gathering position queue with
      ⟨position, queue⟩ | ⟨next, c', moved, position, queue⟩
    · exact ⟨labels, c, ran, position, queue⟩
    · refine ⟨labels ++ [next], c', ?_, position, queue⟩
      rw [List.foldlM_append, ran]
      simpa using moved

end Engine

end NoxDB

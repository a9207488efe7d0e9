import NoxDB.Engine.Roles
import NoxDB.ScrapPage.Merge

/-! # The critical section of `scrap_write_chunk`

The seven ways out of the critical section, and the arithmetic of the split loop of
`nox_write` that its merge relies on.
-/

namespace NoxDB

variable {n : Nat}

/-! ## The split loop -/

namespace Call

variable (call : Call) (done : Nat)

theorem cur_lt : call.cur done < word := Nat.mod_lt _ (by decide)

theorem base_aligned : zoneSize ∣ call.base done := zoneSize_dvd_pageBase _

theorem base_add_intra : call.base done + call.intra done = call.cur done := by
  rw [intra, base]
  exact Nat.add_sub_of_le (pageBase_le _)

theorem intra_lt : call.intra done < zoneSize := by
  have inside := lt_pageBase_add (call.cur done)
  have below := pageBase_le (call.cur done)
  rw [intra, base]
  simp only [zoneSize] at *
  omega

theorem base_add_zone_le : call.base done + zoneSize ≤ word := by
  have aligned := call.base_aligned done
  have below : call.base done < word := lt_of_le_of_lt (pageBase_le _) (call.cur_lt done)
  obtain ⟨k, base⟩ := aligned
  rw [base] at below ⊢
  simp only [zoneSize, word] at *
  omega

theorem intra_add_chunk_le : call.intra done + call.chunk done ≤ zoneSize := by
  have inside := call.intra_lt done
  rw [chunk]
  split <;> omega

theorem done_add_chunk_le (more : done ≤ call.size) : done + call.chunk done ≤ call.size := by
  rw [chunk]
  split <;> omega

theorem chunk_pos {call : Call} {done : Nat} (more : done < call.size) : 0 < call.chunk done := by
  have inside := call.intra_lt done
  rw [chunk]
  split <;> omega

/-- A chunk that stops before its call does fills its page to the end. -/
theorem chunk_eq_of_lt {call : Call} {done : Nat} (more : done + call.chunk done < call.size) :
    call.chunk done = zoneSize - call.intra done := by
  rw [chunk] at more ⊢
  split at more
  · omega
  · next room => rw [if_neg room]

end Call

/-! ## The ways out -/

variable {cfg : Config} {page : ScrapPage Cell} {created : Bool} {cells : Nat → Cell}
  {intra len : Nat}

/-- The page with another `hdr.tag`. -/
def ScrapPage.retag (page : ScrapPage Cell) (tag : Tag) : ScrapPage Cell :=
  { page with hdr := { page.hdr with tag := tag } }

inductive Decided (cfg : Config) (page : ScrapPage Cell) (created : Bool) (cells : Nat → Cell)
    (intra len : Nat) : Decision → Prop where
  /-- The page was found sealed. -/
  | seen (tag : page.hdr.tag = .sealed) :
      Decided cfg page created cells intra len ⟨page, none, .retry, false, false⟩
  | overflow (tag : page.hdr.tag ≠ .sealed)
      (rejected : scrapPageMerge cfg.maxEntries page cells intra len = (.overflow, page))
      (queued : page.inQueue = true) :
      Decided cfg page created cells intra len ⟨page.retag .sealed, none, .retry, false, true⟩
  | overflowPush (tag : page.hdr.tag ≠ .sealed)
      (rejected : scrapPageMerge cfg.maxEntries page cells intra len = (.overflow, page))
      (idle : page.inQueue = false) :
      Decided cfg page created cells intra len
        ⟨{ page.retag .sealed with inQueue := true }, some .partialInc, .retry, false, true⟩
  | full {merged} (tag : page.hdr.tag ≠ .sealed)
      (accepted : scrapPageMerge cfg.maxEntries page cells intra len = (.ok, merged))
      (isFull : scrapPageIsFull merged = true) (queued : page.inQueue = true) :
      Decided cfg page created cells intra len ⟨merged.retag .full, none, .ret, true, false⟩
  | fullPush {merged} (tag : page.hdr.tag ≠ .sealed)
      (accepted : scrapPageMerge cfg.maxEntries page cells intra len = (.ok, merged))
      (isFull : scrapPageIsFull merged = true) (idle : page.inQueue = false) :
      Decided cfg page created cells intra len
        ⟨{ merged.retag .full with inQueue := true }, some .fullInc, .ret, true, false⟩
  | partialPush {merged} (tag : page.hdr.tag ≠ .sealed)
      (accepted : scrapPageMerge cfg.maxEntries page cells intra len = (.ok, merged))
      (holes : scrapPageIsFull merged = false) (idle : page.inQueue = false)
      (new : created = true) :
      Decided cfg page created cells intra len
        ⟨{ merged with inQueue := true }, some .partialInc, .ret, true, false⟩
  | stay {merged} (tag : page.hdr.tag ≠ .sealed)
      (accepted : scrapPageMerge cfg.maxEntries page cells intra len = (.ok, merged))
      (holes : scrapPageIsFull merged = false)
      (old : created = true → page.inQueue = true) :
      Decided cfg page created cells intra len ⟨merged, none, .ret, true, false⟩

theorem enqueuePartial_queued (queued : page.inQueue = true) :
    enqueuePartial page = (page, none) := if_pos queued

theorem enqueuePartial_idle (idle : page.inQueue = false) :
    enqueuePartial page = ({ page with inQueue := true }, some .partialInc) := by
  simp [enqueuePartial, idle]

theorem enqueueFull_queued (queued : page.inQueue = true) :
    enqueueFull page = (page.retag .full, none) := if_pos queued

theorem enqueueFull_idle (idle : page.inQueue = false) :
    enqueueFull page = ({ page.retag .full with inQueue := true }, some .fullInc) := by
  simp [enqueueFull, idle, ScrapPage.retag]

theorem decided (cfg : Config) (page : ScrapPage Cell) (created : Bool) (cells : Nat → Cell)
    (intra len : Nat) :
    Decided cfg page created cells intra len (chunkDecision cfg page created cells intra len) := by
  rw [chunkDecision]
  split
  · next tag => exact .seen tag
  · next tag =>
    split
    -- After an overflow the page is as it was, so the flag is that of the old page.
    · next same rejected =>
      obtain rfl := scrapPageMerge_overflow rejected
      change Decided cfg same created cells intra len
        (⟨(enqueuePartial (same.retag .sealed)).1, (enqueuePartial (same.retag .sealed)).2,
          .retry, false, true⟩ : Decision)
      cases queued : same.inQueue with
      | true =>
        rw [enqueuePartial_queued (show (same.retag .sealed).inQueue = true from queued)]
        exact .overflow tag rejected queued
      | false =>
        rw [enqueuePartial_idle (show (same.retag .sealed).inQueue = false from queued)]
        exact .overflowPush tag rejected queued
    · next merged accepted =>
      have flag : merged.inQueue = page.inQueue := by rw [(scrapPageMerge_ok accepted).2]
      split
      -- A full page goes to Queue-2 unless it is in a queue; otherwise only a new page is pushed.
      · next isFull =>
        change Decided cfg page created cells intra len
          (⟨(enqueueFull merged).1, (enqueueFull merged).2, .ret, true, false⟩ : Decision)
        cases queued : page.inQueue with
        | true =>
          rw [enqueueFull_queued (flag.trans queued)]
          exact .full tag accepted isFull queued
        | false =>
          rw [enqueueFull_idle (flag.trans queued)]
          exact .fullPush tag accepted isFull queued
      · next holes =>
        have holes : scrapPageIsFull merged = false := by simpa using holes
        split
        · next new =>
          change Decided cfg page created cells intra len
            (⟨(enqueuePartial merged).1, (enqueuePartial merged).2, .ret, true, false⟩ : Decision)
          cases queued : page.inQueue with
          | true =>
            rw [enqueuePartial_queued (flag.trans queued)]
            exact .stay tag accepted holes fun _ => queued
          | false =>
            rw [enqueuePartial_idle (flag.trans queued)]
            exact .partialPush tag accepted holes queued new
        · next old => exact .stay tag accepted holes fun new => absurd new old

theorem Decided.of_eq {cfg : Config} {page : ScrapPage Cell} {created : Bool} {cells : Nat → Cell}
    {intra len : Nat} {decision : Decision}
    (chosen : decision = chunkDecision cfg page created cells intra len) :
    Decided cfg page created cells intra len decision := by
  rw [chosen]
  exact decided cfg page created cells intra len

/-! ## What every way out has in common -/

namespace Decided

variable {decision : Decision} (way : Decided cfg page created cells intra len decision)
include way

theorem base : decision.page.base = page.base := by
  cases way with
  | seen | overflow | overflowPush => rfl
  | full _ accepted | fullPush _ accepted | partialPush _ accepted | stay _ accepted =>
    simp [(scrapPageMerge_ok accepted).2, ScrapPage.retag]

theorem detached : decision.page.detached = page.detached := by
  cases way with
  | seen | overflow | overflowPush => rfl
  | full _ accepted | fullPush _ accepted | partialPush _ accepted | stay _ accepted =>
    simp [(scrapPageMerge_ok accepted).2, ScrapPage.retag]

theorem tag_ne (before : page.hdr.tag ≠ .flushing) : decision.page.hdr.tag ≠ .flushing := by
  cases way with
  | seen => exact before
  | overflow | overflowPush | full | fullPush => simp [ScrapPage.retag]
  | partialPush _ accepted | stay _ accepted =>
    rw [(scrapPageMerge_ok accepted).2]; exact before

theorem inQueue_of_stays (stays : decision.enqueue = none) :
    decision.page.inQueue = page.inQueue := by
  cases way with
  | seen | overflow => rfl
  | full _ accepted | stay _ accepted =>
    simp [(scrapPageMerge_ok accepted).2, ScrapPage.retag]
  | overflowPush | fullPush | partialPush => simp at stays

theorem inQueue_of_pushes {e : Enqueue} (pushes : decision.enqueue = some e) :
    page.inQueue = false ∧ decision.page.inQueue = true := by
  cases way with
  | overflowPush _ _ idle | fullPush _ _ _ idle | partialPush _ _ _ idle => exact ⟨idle, rfl⟩
  | seen | overflow | full | stay => simp at pushes

theorem wellFormed (before : page.WellFormed cfg.maxEntries) (positive : 0 < len)
    (room : intra + len ≤ zoneSize) : decision.page.WellFormed cfg.maxEntries := by
  cases way with
  | seen | overflow | overflowPush => exact { before with }
  | full _ accepted | fullPush _ accepted | partialPush _ accepted | stay _ accepted =>
    exact { scrapPageMerge_wellFormed before positive room accepted with }

theorem covered (before : page.WellFormed cfg.maxEntries) (positive : 0 < len) (x : Nat) :
    decision.page.Covered x ↔
      page.Covered x ∨ decision.merged = true ∧ intra ≤ x ∧ x < intra + len := by
  cases way with
  | seen | overflow | overflowPush => simp [ScrapPage.Covered, ScrapPage.retag]
  | full _ accepted | fullPush _ accepted | partialPush _ accepted | stay _ accepted =>
    have grown := scrapPageMerge_covered (x := x) before positive accepted
    simpa [ScrapPage.Covered, ScrapPage.retag] using grown

theorem data (x : Nat) :
    decision.page.data x =
      if decision.merged = true ∧ intra ≤ x ∧ x < intra + len then cells (x - intra)
      else page.data x := by
  cases way with
  | seen | overflow | overflowPush => simp [ScrapPage.retag]
  | full _ accepted | fullPush _ accepted | partialPush _ accepted | stay _ accepted =>
    rw [(scrapPageMerge_ok accepted).2]
    simp [ScrapPage.retag, copyAt]

theorem isFull (before : page.WellFormed cfg.maxEntries) (positive : 0 < len)
    (room : intra + len ≤ zoneSize) (full : scrapPageIsFull page = true) :
    scrapPageIsFull decision.page = true := by
  rw [scrapPageIsFull_iff (way.wellFormed before positive room)]
  intro x inside
  rw [way.covered before positive]
  exact .inl ((scrapPageIsFull_iff before).mp full x inside)

theorem isFull_of_pushes {e : Enqueue} (pushes : decision.enqueue = some e)
    (straight : e.isFull = true) : scrapPageIsFull decision.page = true := by
  cases way with
  | fullPush _ _ isFull => exact isFull
  | overflowPush | partialPush =>
    obtain rfl : Enqueue.partialInc = e := by simpa using pushes
    simp [Enqueue.isFull] at straight
  | seen | overflow | full | stay => simp at pushes

/-- A fresh page is always pushed. -/
theorem pushes_of_fresh (new : created = true) (empty : page.hdr.entries = [])
    (opened : page.hdr.tag = .opened) (idle : page.inQueue = false) :
    ∃ e, decision.enqueue = some e := by
  have accepts : (scrapPageMerge cfg.maxEntries page cells intra len).1 = .ok :=
    scrapPageMerge_of_empty cfg.maxEntries_pos empty
  cases way with
  | seen tag => simp [opened] at tag
  | overflow _ rejected | overflowPush _ rejected => simp [rejected] at accepts
  | full _ _ _ queued => simp [idle] at queued
  | fullPush | partialPush => exact ⟨_, rfl⟩
  | stay _ _ _ old => simp [idle] at old; exact absurd new (by simpa using old)

end Decided

/-! ## The sweep of `nox_close` -/

/-- What `enqueue_one` does to a page that is in no queue. -/
theorem enqueueOne_idle (idle : page.inQueue = false) :
    Engine.enqueueOne page =
      if scrapPageIsFull page then ({ page.retag .full with inQueue := true }, some .fullInc)
      else ({ page with inQueue := true }, some .partialInc) := by
  rw [Engine.enqueueOne, enqueueFull_idle idle, enqueuePartial_idle idle]

end NoxDB

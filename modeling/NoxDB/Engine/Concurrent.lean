import NoxDB.Engine.Coherence
import NoxDB.Engine.Orphans

/-! # Concurrent calls that share no byte

When calls that overlap in time never overlap in bytes and no allocation fails, nothing is
overtaken.  A page leaves the index before it is full only because a writer found it sealed,
and that writer comes back for the rest of its chunk; so as long as an older page of a base
waits for Stage-1, the index has a page of that base or such a writer is on its way.  Neither
leaves room for a call that writes the whole zone into a fresh page.
-/

namespace NoxDB

open Function (update)
open Library.Runs

variable {n : Nat}

/-- The call that the thread is in. -/
def Fg.call : Fg → Option Call
  | .idle => none
  | .direct call => some call
  | .scrap call _ _ => some call

/-- A call shares no byte with a call in progress. -/
def NonOverlap (s : Engine n) : Label n → Prop
  | .call _ call => ∀ u, ∀ other ∈ (s.fg u).call, ∀ y, ¬ (call.Covers y ∧ other.Covers y)
  | _ => True

/-- The allocator does not fail. -/
def Label.allocates : Label n → Bool
  | .oom _ => false
  | _ => true

/-- Two calls in progress share no byte. -/
def Apart (s : Engine n) : Prop :=
  ∀ t u, t ≠ u → ∀ a ∈ (s.fg t).call, ∀ b ∈ (s.fg u).call, ∀ y, ¬ (a.Covers y ∧ b.Covers y)

/-- The thread has given up a page and will come back for its chunk. -/
def ChunkPc.retries : ChunkPc → Bool
  | .enqueue _ _ .retry | .unlock _ .retry | .detach _ => true
  | _ => false

/-- The thread has still to find a page for its chunk. -/
def ChunkPc.seeks : ChunkPc → Bool
  | .gate | .parked | .lookup => true
  | pc => pc.retries

/-- The page the thread took from the index and has not written to yet. -/
def ChunkPc.taken : ChunkPc → Option PageId
  | .lockPage p | .held p _ => some p
  | _ => none

/-- A thread that has still to write less than a whole zone at `base`. -/
def Seeking (s : Engine n) (base : Nat) : Prop :=
  ∃ t call done pc, s.fg t = .scrap call done pc ∧ pc.seeks = true ∧ call.base done = base ∧
    call.chunk done < zoneSize

/-- The index has a page of `base`. -/
def Indexed (s : Engine n) (base : Nat) : Prop :=
  ∃ p ∈ s.buckets (piHash base), (s.pages p).base = base

/-- The pages sealed because their entries ran out, newest first. -/
def Engine.seals (s : Engine n) : List PageId :=
  s.log.filterMap fun
    | .sealedByOverflow p => some p
    | _ => none

variable {cfg : Config} {file : File} {scratch : Nat → UInt8} {s s' : Engine n} {label : Label n}

/-! ## The bytes of a chunk -/

/-- The bytes of a chunk are bytes of its call. -/
theorem Call.covers_chunk {call : Call} {done y : Nat} (more : done < call.size)
    (low : call.cur done ≤ y) (high : y < call.cur done + call.chunk done) :
    y < word ∧ call.index y = done + (y - call.cur done) ∧ done + (y - call.cur done) < call.size := by
  have place := call.base_add_intra done
  have room := call.intra_add_chunk_le done
  have top := call.base_add_zone_le done
  have fits := call.done_add_chunk_le done more.le
  have small := call.size_lt
  have start := call.offset_lt
  have bound : y < word := by omega
  refine ⟨bound, ?_, by omega⟩
  rw [Call.index]
  simp only [Call.cur, word] at *
  omega

theorem Call.covers_of_chunk {call : Call} {done y : Nat} (more : done < call.size)
    (low : call.cur done ≤ y) (high : y < call.cur done + call.chunk done) : call.Covers y := by
  obtain ⟨bound, index, fits⟩ := Call.covers_chunk more low high
  exact ⟨bound, by omega⟩

/-- A thread stays in its call, or it was idle and the application calls `nox_write`. -/
theorem call_cases (move : Move cfg s label s') {t : Fin n} {call : Call}
    (after : call ∈ (s'.fg t).call) :
    call ∈ (s.fg t).call ∨ label = .call t call := by
  by_cases mine : label.thread = some t
  · cases own_move move mine with
    | callZero => exact .inl after
    | callDirect | callScrap =>
      obtain rfl := Option.some.inj mine
      obtain rfl : _ = call := by simpa [Fg.call] using after
      exact .inr rfl
    | oomPage | oomDirect | unlockDone | pwrite =>
      obtain rfl := Option.some.inj mine
      simp [Fg.call] at after
    | gatePass position | gatePark position | parkedPass position | lookupFound position
    | alloc position | lockPage position | decide position | partialInc position
    | partialPush position | fullInc position | fullEnter position | fullPush position
    | unlockMore position | unlockRetry position | detach position =>
      obtain rfl := Option.some.inj mine
      left
      rw [position]
      simpa [Fg.call] using after
  · rw [fg_frame move mine] at after
    exact .inl after

namespace Apart

/-- While a call writes a whole zone, no other call works on that zone. -/
theorem no_rival (apart : Apart s) (ready : Ready cfg s) {t u : Fin n} (differs : t ≠ u)
    {call other : Call} {done done' : Nat} {pc pc' : ChunkPc}
    (position : s.fg t = .scrap call done pc) (whole : call.chunk done = zoneSize)
    (rival : s.fg u = .scrap other done' pc') : other.base done' ≠ call.base done := by
  intro same
  have more := ready.progress t call done pc position
  have moreToo := ready.progress u other done' pc' rival
  have place := call.base_add_intra done
  have room := call.intra_add_chunk_le done
  have placeToo := other.base_add_intra done'
  have inside := other.intra_lt done'
  have positive := Call.chunk_pos moreToo
  refine apart t u differs call (by rw [position]; rfl) other (by rw [rival]; rfl)
    (other.cur done') ⟨Call.covers_of_chunk more ?_ ?_, Call.covers_of_chunk moreToo le_rfl ?_⟩
  · omega
  · omega
  · omega

theorem step (apart : Apart s) (move : Move cfg s label s') (meets : NonOverlap s label) :
    Apart s' := by
  intro t u differs a first b second y both
  rcases call_cases move first with before | rfl
  · rcases call_cases move second with also | rfl
    · exact apart t u differs a before b also y both
    · exact meets t a before y both.symm
  · rcases call_cases move second with also | same
    · exact meets u b also y both
    · exact differs (Label.call.inj same).1

end Apart

/-! ## Where things come from -/

theorem seals_chunkEvents (t : Fin n) (p : PageId) (call : Call) (done : Nat)
    (decision : Decision) (log : List (Event n)) :
    ({ s with log := chunkEvents t p call done decision ++ log } : Engine n).seals =
      (if decision.sealedNow then [p] else []) ++ ({ s with log := log } : Engine n).seals := by
  simp only [Engine.seals, chunkEvents, List.filterMap_append]
  split <;> split <;> split <;> split <;> rfl

/-- A step seals the page that a writer holds and cannot merge into, or it seals nothing. -/
theorem sealing_step (move : Move cfg s label s') :
    (s'.seals = s.seals ∧
      ∀ p, (s'.pages p).hdr.tag = .sealed → (s.pages p).hdr.tag = .sealed) ∨
    ∃ t call done p created, s.fg t = .scrap call done (.held p created) ∧
      (s.pages p).hdr.tag ≠ .sealed ∧
      scrapPageMerge cfg.maxEntries (s.pages p) (call.cells done) (call.intra done)
        (call.chunk done) = (.overflow, s.pages p) ∧
      s'.seals = p :: s.seals ∧ (∀ q ≠ p, s'.pages q = s.pages q) ∧
      (s'.pages p).hdr.tag = .sealed ∧ (s'.fg t).retrying = some p := by
  -- Besides the critical section of a writer, no step changes a tag to sealed.
  have same : s'.pages = s.pages →
      ∀ p, (s'.pages p).hdr.tag = .sealed → (s.pages p).hdr.tag = .sealed :=
    fun pages p sealed => pages ▸ sealed
  have retag : ∀ {q : PageId} {page : ScrapPage Cell}, s'.pages = update s.pages q page →
      (page.hdr.tag = .sealed → (s.pages q).hdr.tag = .sealed) →
      ∀ p, (s'.pages p).hdr.tag = .sealed → (s.pages p).hdr.tag = .sealed := by
    intro q page pages tag p sealed
    rw [pages] at sealed
    by_cases isQ : p = q
    · subst isQ
      exact tag (by simpa using sealed)
    · simpa [isQ] using sealed
  cases move with
  | fg move =>
    cases move with
    | @decide t call done p created position decision decided =>
      have way := Decided.of_eq decided
      have seals := @seals_chunkEvents n s t p call done decision s.log
      cases way with
      | seen tag => exact .inl ⟨seals, retag rfl fun _ => tag⟩
      -- Both overflows, with and without a push, seal the page and send the thread round again.
      | overflow tag rejected | overflowPush tag rejected =>
        exact .inr ⟨t, call, done, p, created, position, tag, rejected, seals,
          fun q other => Function.update_of_ne other _ _, by simp [ScrapPage.retag],
          by simp [Decision.next, Fg.retrying]⟩
      | full | fullPush => exact .inl ⟨seals, retag rfl (by simp [ScrapPage.retag])⟩
      | partialPush tag accepted | stay tag accepted =>
        exact .inl ⟨seals, retag rfl (by simp [(scrapPageMerge_ok accepted).2])⟩
    | alloc => exact .inl ⟨rfl, retag rfl (by simp [scrapPageAlloc])⟩
    | detach => exact .inl ⟨by simp [Engine.seals, List.filterMap_map], same rfl⟩
    | _ => exact .inl ⟨rfl, same rfl⟩
  | stage1 move =>
    left
    cases move with
    | fill => exact ⟨rfl, retag rfl (by simp)⟩
    | drop => exact ⟨rfl, retag rfl (by simp)⟩
    | _ => exact ⟨rfl, same rfl⟩
  | stage2 move =>
    left
    cases move with
    | unlink => exact ⟨rfl, retag rfl (by simp)⟩
    | tag => exact ⟨rfl, retag rfl (by simp)⟩
    | pwritev => exact ⟨by simp [Engine.seals], same rfl⟩
    | _ => exact ⟨rfl, same rfl⟩
  | closer move =>
    left
    cases move with
    | @sweepLock err bucket q position alive free page enqueue chosen =>
      refine ⟨rfl, retag rfl fun tag => ?_⟩
      rw [show page = (Engine.enqueueOne (s.pages q)).1 from congrArg Prod.fst chosen] at tag
      simp only [Engine.enqueueOne, enqueueFull, enqueuePartial] at tag
      split at tag
      · split at tag <;> simp at tag
      · split at tag <;> simpa using tag
    | destroy => exact ⟨by simp [Engine.seals, List.filterMap_map], same rfl⟩
    | _ => exact ⟨rfl, same rfl⟩

/-- A page is sealed by a writer that is then going to retry. -/
theorem sealing_cases (move : Move cfg s label s') {p : PageId}
    (sealed : (s'.pages p).hdr.tag = .sealed) :
    (s.pages p).hdr.tag = .sealed ∨ ∃ t call done created,
      s.fg t = .scrap call done (.held p created) ∧ (s'.fg t).retrying = some p := by
  rcases sealing_step move with
    ⟨-, tags⟩ | ⟨t, call, done, q, created, position, -, -, -, others, -, retrying⟩
  · exact .inl (tags p sealed)
  · by_cases same : p = q
    · subst same
      exact .inr ⟨t, call, done, created, position, retrying⟩
    · exact .inl (by rwa [others p same] at sealed)

/-- What is in Queue-1 or in Stage-1's hand was there before or has just been pushed. -/
theorem late_cases (move : Move cfg s label s') {p : PageId} (late : p ∈ s'.s1.pages ++ s'.q1) :
    p ∈ s.s1.pages ++ s.q1 ∨ s'.buckets = s.buckets ∧
      ∃ o e, s.custody.role o = .pushing p e ∧ e.isFull = false := by
  cases move with
  | fg move =>
    cases move with
    | @partialPush t call done q after position =>
      rw [← List.append_assoc] at late
      rcases List.mem_append.mp late with before | now
      · exact .inl before
      · obtain rfl := List.mem_singleton.mp now
        exact .inr ⟨rfl, .fg t, .partialPush, role_at position, rfl⟩
    | _ => exact .inl late
  | closer move =>
    cases move with
    | @partialPush err bucket q position =>
      rw [← List.append_assoc] at late
      rcases List.mem_append.mp late with before | now
      · exact .inl before
      · obtain rfl := List.mem_singleton.mp now
        exact .inr ⟨rfl, .closer, .partialPush, closer_role_at position, rfl⟩
    | _ => exact .inl late
  | stage2 move => cases move <;> exact .inl late
  | stage1 move =>
    left
    cases move with
    | pop position queue =>
      simpa [position, queue, Stage1.pages] using late
    | exit position | inspectFull position | inspectBusy position | inspectHoles position
    | forwardEnter position | forwardPush position | busyPush position | wake position
    | guardPass position | readStart position | readEnd position | readFailed position
    | fill position | drop position | dropDec position | fillEnter position | fillPush position
    | preadOk position | preadFail position =>
      simp only [position, Stage1.pages, List.mem_append, List.mem_singleton, List.not_mem_nil,
        false_or] at late ⊢
      grind

/-- A thread that looks for a page of `base` goes on looking until the index has one. -/
theorem seeking_step (move : Move cfg s label s') (allocates : label.allocates = true) {base : Nat}
    (seeking : Seeking s base) : Seeking s' base ∨ Indexed s' base := by
  obtain ⟨t, call, done, pc, position, seeks, rfl, short⟩ := seeking
  have onward : ∀ {pc' : ChunkPc}, s'.fg t = .scrap call done pc' → pc'.seeks = true →
      Seeking s' (call.base done) ∨ Indexed s' (call.base done) := fun position seeks =>
    .inl ⟨t, call, done, _, position, seeks, rfl, short⟩
  have again : ∀ {p : PageId} {e : Enqueue} {after : After},
      (ChunkPc.enqueue p e after).seeks = true →
        (∀ e', (ChunkPc.enqueue p e' after).seeks = true) ∧ (ChunkPc.unlock p after).seeks = true := by
    intro p e after seeks
    cases after <;> simp_all [ChunkPc.seeks, ChunkPc.retries]
  by_cases mine : label.thread = some t
  · cases own_move move mine with
    | oomPage | oomDirect => simp [Label.allocates] at allocates
    | @lookupFound _ _ _ p position' free found =>
      obtain rfl := Option.some.inj mine
      obtain ⟨rfl, rfl, -⟩ := Fg.scrap.inj (position'.symm.trans position)
      exact .inr ⟨p, List.mem_of_find?_eq_some found, by simpa using List.find?_some found⟩
    | alloc position' =>
      obtain rfl := Option.some.inj mine
      obtain ⟨rfl, rfl, -⟩ := Fg.scrap.inj (position'.symm.trans position)
      exact .inr ⟨s.created, by simp, by simp [scrapPageAlloc]⟩
    | gatePass position' | gatePark position' | parkedPass position' | detach position'
    | unlockRetry position' =>
      obtain rfl := Option.some.inj mine
      obtain ⟨rfl, rfl, -⟩ := Fg.scrap.inj (position'.symm.trans position)
      exact onward (Function.update_self _ _ _) rfl
    | partialInc position' | fullInc position' | fullEnter position' =>
      obtain rfl := Option.some.inj mine
      obtain ⟨rfl, rfl, rfl⟩ := Fg.scrap.inj (position'.symm.trans position)
      exact onward (Function.update_self _ _ _) ((again seeks).1 _)
    | partialPush position' | fullPush position' =>
      obtain rfl := Option.some.inj mine
      obtain ⟨rfl, rfl, rfl⟩ := Fg.scrap.inj (position'.symm.trans position)
      exact onward (Function.update_self _ _ _) (again seeks).2
    | lockPage position' | decide position' | unlockMore position' | unlockDone position' =>
      obtain rfl := Option.some.inj mine
      obtain ⟨-, -, rfl⟩ := Fg.scrap.inj (position'.symm.trans position)
      simp [ChunkPc.seeks, ChunkPc.retries] at seeks
    | callZero position' | callDirect position' | callScrap position' | pwrite position' =>
      obtain rfl := Option.some.inj mine
      simp [position'] at position
  · exact onward (by rw [fg_frame move mine, position]) seeks

/-- A thread that retries did so before, or its critical section has just decided it. -/
theorem retries_cases (move : Move cfg s label s') {t : Fin n} {call : Call} {done : Nat}
    {pc : ChunkPc} (after : s'.fg t = .scrap call done pc) (retries : pc.retries = true) :
    (∃ pc', s.fg t = .scrap call done pc' ∧ pc'.retries = true) ∨
      ∃ p created decision, s.fg t = .scrap call done (.held p created) ∧
        Decided cfg (s.pages p) created (call.cells done) (call.intra done) (call.chunk done)
          decision ∧ decision.after = .retry := by
  by_cases mine : label.thread = some t
  · cases own_move move mine with
    | @decide u call' done' p created position decision decided =>
      obtain rfl : u = t := Option.some.inj mine
      obtain ⟨rfl, rfl, rfl⟩ : call' = call ∧ done' = done ∧ decision.next p = pc := by
        simpa using after
      refine .inr ⟨p, created, decision, position, .of_eq decided, ?_⟩
      rw [Decision.next] at retries
      cases again : decision.after <;> cases pushes : decision.enqueue <;>
        simp_all [ChunkPc.retries]
    | @partialInc u call' done' p outcome position | @partialPush u call' done' p outcome position
    | @fullInc u call' done' p outcome position | @fullEnter u call' done' p outcome position
    | @fullPush u call' done' p outcome position =>
      obtain rfl : u = t := Option.some.inj mine
      obtain ⟨rfl, rfl, rfl⟩ := Fg.scrap.inj ((Function.update_self _ _ _).symm.trans after)
      cases outcome with
      | ret => simp [ChunkPc.retries] at retries
      | retry => exact .inl ⟨_, position, rfl⟩
    | @unlockRetry u call' done' p position =>
      obtain rfl : u = t := Option.some.inj mine
      obtain ⟨rfl, rfl, rfl⟩ := Fg.scrap.inj ((Function.update_self _ _ _).symm.trans after)
      exact .inl ⟨_, position, rfl⟩
    | callZero position =>
      obtain rfl := Option.some.inj mine
      simp [position] at after
    | callScrap | gatePass | gatePark | parkedPass | lookupFound | alloc | lockPage | unlockMore
    | detach =>
      obtain rfl := Option.some.inj mine
      obtain ⟨-, -, rfl⟩ := Fg.scrap.inj ((Function.update_self _ _ _).symm.trans after)
      simp [ChunkPc.retries] at retries
    | callDirect | oomPage | oomDirect | unlockDone | pwrite =>
      obtain rfl := Option.some.inj mine
      simp at after
  · rw [fg_frame move mine] at after
    exact .inl ⟨pc, after, retries⟩

theorem ChunkPc.target_of_taken {pc : ChunkPc} {p : PageId} (taken : pc.taken = some p) :
    pc.target = some p := by
  cases pc with
  | lockPage q | held q created => exact taken
  | _ => simp [ChunkPc.taken] at taken

/-- A page that is in somebody's hand is not given up yet. -/
theorem ChunkPc.retrying_of_taken {pc : ChunkPc} {p : PageId} (taken : pc.taken = some p)
    (call : Call) (done : Nat) : (Fg.scrap call done pc).retrying = none := by
  cases pc with
  | lockPage q | held q created => rfl
  | _ => simp [ChunkPc.taken] at taken

/-- A thread that has a page in its hand had it before, found it in the index or created it. -/
theorem taken_cases (move : Move cfg s label s') {t : Fin n} {call : Call} {done : Nat}
    {pc : ChunkPc} {p : PageId} (after : s'.fg t = .scrap call done pc) (taken : pc.taken = some p) :
    (∃ pc', s.fg t = .scrap call done pc' ∧ pc'.taken = some p) ∨
      s.fg t = .scrap call done .lookup ∧ p ∈ s'.buckets (piHash (call.base done)) ∧
        (s'.pages = s.pages ∧ p ∈ s.buckets (piHash (call.base done)) ∧
            (s.pages p).base = call.base done ∨
          p = s.created ∧ (s'.pages p).hdr.tag = .opened) := by
  by_cases mine : label.thread = some t
  · cases own_move move mine with
    | @lookupFound u call' done' q position free found =>
      obtain rfl : u = t := Option.some.inj mine
      obtain ⟨rfl, rfl, rfl⟩ := Fg.scrap.inj ((Function.update_self _ _ _).symm.trans after)
      obtain rfl := Option.some.inj taken
      have linked := List.mem_of_find?_eq_some found
      exact .inr ⟨position, linked, .inl ⟨rfl, linked, by simpa using List.find?_some found⟩⟩
    | @alloc u call' done' address zone position =>
      obtain rfl : u = t := Option.some.inj mine
      obtain ⟨rfl, rfl, rfl⟩ := Fg.scrap.inj ((Function.update_self _ _ _).symm.trans after)
      obtain rfl := Option.some.inj taken
      exact .inr ⟨position, by simp, .inr ⟨rfl, by simp [scrapPageAlloc]⟩⟩
    | @lockPage u call' done' q position =>
      obtain rfl : u = t := Option.some.inj mine
      obtain ⟨rfl, rfl, rfl⟩ := Fg.scrap.inj ((Function.update_self _ _ _).symm.trans after)
      exact .inl ⟨_, position, taken⟩
    | @decide u call' done' q created position decision =>
      obtain rfl : u = t := Option.some.inj mine
      obtain ⟨-, -, rfl⟩ := Fg.scrap.inj ((Function.update_self _ _ _).symm.trans after)
      rw [Decision.next] at taken
      split at taken <;> simp [ChunkPc.taken] at taken
    | callZero position =>
      obtain rfl := Option.some.inj mine
      simp [position] at after
    | callScrap | gatePass | gatePark | parkedPass | partialInc | partialPush | fullInc | fullEnter
    | fullPush | unlockMore | unlockRetry | detach =>
      obtain rfl := Option.some.inj mine
      obtain ⟨-, -, rfl⟩ := Fg.scrap.inj ((Function.update_self _ _ _).symm.trans after)
      simp [ChunkPc.taken] at taken
    | callDirect | oomPage | oomDirect | unlockDone | pwrite =>
      obtain rfl := Option.some.inj mine
      simp at after
  · rw [fg_frame move mine] at after
    exact .inl ⟨pc, after, taken⟩

/-- What is in the index was there before or is new and open. -/
theorem linked_before (move : Move cfg s label s') {b : Nat} {p : PageId}
    (linked : p ∈ s'.buckets b) :
    p ∈ s.buckets b ∨ p = s.created ∧ (s'.pages p).hdr.tag = .opened := by
  have shorter : ∀ {base address : Nat}, p ∈ update s.buckets (piHash base)
      ((s.buckets (piHash base)).eraseP fun q => s.addr q == address) b → p ∈ s.buckets b :=
    fun member => Custody.mem_of_mem_unlinkAddr (c := s.custody) member
  cases move with
  | fg move =>
    cases move with
    | alloc =>
      rcases Library.Lists.mem_update_cons.mp linked with ⟨-, rfl⟩ | old
      · exact .inr ⟨rfl, by simp [scrapPageAlloc]⟩
      · exact .inl old
    | detach => exact .inl (shorter linked)
    | _ => exact .inl linked
  | stage1 move => cases move <;> exact .inl linked
  | stage2 move =>
    cases move with
    | unlink => exact .inl (shorter linked)
    | _ => exact .inl linked
  | closer move =>
    cases move with
    | destroy => simp at linked
    | _ => exact .inl linked

theorem Fg.position_of_giving_up {f : Fg} {p : PageId}
    (holds : f.retrying = some p ∨ f.detaching = some p) :
    ∃ call done pc, f = .scrap call done pc ∧ pc.target = some p ∧ pc.retries = true := by
  cases f with
  | scrap call done pc =>
    refine ⟨call, done, pc, rfl, ?_⟩
    cases pc with
    | enqueue q e outcome | unlock q outcome =>
      cases outcome <;> simp_all [Fg.retrying, Fg.detaching, ChunkPc.target, ChunkPc.retries]
    | _ => simp_all [Fg.retrying, Fg.detaching, ChunkPc.target, ChunkPc.retries]
  | _ => simp [Fg.retrying, Fg.detaching] at holds

/-- A thread that is going to detach a page still is, unless it has just removed it from the
index. -/
theorem gives_up_onward (ordinary : Ordinary cfg s) (move : Move cfg s label s') {b : Nat}
    {p : PageId} (before : p ∈ s.buckets b) (after : p ∈ s'.buckets b) {t : Fin n}
    (holds : (s.fg t).retrying = some p ∨ (s.fg t).detaching = some p) :
    (s'.fg t).retrying = some p ∨ (s'.fg t).detaching = some p := by
  have owned := ordinary.sound.owned
  by_cases mine : label.thread = some t
  · cases own_move move mine with
    | @detach u call done q position free =>
      obtain rfl : u = t := Option.some.inj mine
      obtain rfl : q = p := by simpa [position, Fg.retrying, Fg.detaching] using holds
      have base : (s.pages q).base = call.base done := ordinary.aimed u call done _ q position rfl
      have bucket : piHash (s.pages q).base = b := (owned.indexed b q before).2
      rw [base] at bucket
      subst bucket
      have gone : q ∉ (s.buckets (piHash (call.base done))).eraseP fun r => s.addr r == s.addr q := by
        refine Library.Lists.not_mem_eraseP (owned.chain _) (by simp) fun r member hit => ?_
        have same : s.addr r = s.addr q := by simpa using hit
        exact owned.address r q (owned.indexed _ r member).1 (owned.indexed _ q before).1 same
      exact absurd (by simpa using after) gone
    | @partialInc u call done q outcome position | @partialPush u call done q outcome position
    | @fullInc u call done q outcome position | @fullEnter u call done q outcome position
    | @fullPush u call done q outcome position =>
      obtain rfl : u = t := Option.some.inj mine
      rw [position] at holds
      cases outcome with
      | ret => simp [Fg.retrying, Fg.detaching] at holds
      | retry => simpa [Fg.retrying, Fg.detaching] using holds
    | unlockRetry position =>
      obtain rfl := Option.some.inj mine
      simpa [position, Fg.retrying, Fg.detaching] using holds
    | callZero position | callDirect position | callScrap position | gatePass position
    | gatePark position | parkedPass position | lookupFound position | alloc position
    | oomPage position | oomDirect position | lockPage position | decide position
    | unlockMore position | unlockDone position | pwrite position =>
      obtain rfl := Option.some.inj mine
      simp [position, Fg.retrying, Fg.detaching] at holds
  · rw [fg_frame move mine]
    exact holds

theorem Fg.position_of_bornFull {f : Fg} {base : Nat} (bornFull : base ∈ f.bornFull) :
    ∃ call done p, f = .scrap call done (.held p true) ∧ call.chunk done = zoneSize ∧
      call.base done = base := by
  unfold Fg.bornFull at bornFull
  split at bornFull
  · next call done p =>
    split at bornFull
    · next whole => exact ⟨call, done, p, rfl, whole, Option.some.inj bornFull⟩
    · simp at bornFull
  · simp at bornFull

theorem Fg.position_of_pushing {f : Fg} {p : PageId} {e : Enqueue} (pushes : f.role = .pushing p e) :
    ∃ call done pc, f = .scrap call done pc ∧ pc.target = some p := by
  cases f with
  | scrap call done pc =>
    refine ⟨call, done, pc, rfl, ?_⟩
    cases pc <;> simp_all [Fg.role, ChunkPc.role, ChunkPc.target]
  | _ => simp [Fg.role] at pushes

theorem Closer.phase_of_pushing {closer : Closer} {p : PageId} {e : Enqueue}
    (pushes : closer.role = .pushing p e) : 0 < closer.phase := by
  cases closer with
  | running => simp [Closer.role] at pushes
  | _ => simp [Closer.phase]

/-- A thread that has just created a page did so by a lookup that found none. -/
theorem held_fresh_cases (move : Move cfg s label s') {t : Fin n} {call : Call} {done : Nat}
    {p : PageId} (after : s'.fg t = .scrap call done (.held p true)) :
    s.fg t = .scrap call done (.held p true) ∨
      s.fg t = .scrap call done .lookup ∧ s.find (call.base done) = none := by
  by_cases mine : label.thread = some t
  · cases own_move move mine with
    | @alloc u call' done' address zone position free absent =>
      obtain rfl : u = t := Option.some.inj mine
      obtain ⟨rfl, rfl, -⟩ := Fg.scrap.inj ((Function.update_self _ _ _).symm.trans after)
      exact .inr ⟨position, absent⟩
    | @decide u call' done' q created position decision =>
      obtain rfl : u = t := Option.some.inj mine
      obtain ⟨-, -, next⟩ := Fg.scrap.inj ((Function.update_self _ _ _).symm.trans after)
      rw [Decision.next] at next
      split at next <;> simp at next
    | callZero position =>
      obtain rfl := Option.some.inj mine
      simp [position] at after
    | _ =>
      obtain rfl := Option.some.inj mine
      simp at after
  · rw [fg_frame move mine] at after
    exact .inl after

/-! ## The invariant -/

structure Serial (s : Engine n) : Prop where
  apart : Apart s
  retrying : ∀ t call done pc, s.fg t = .scrap call done pc → pc.retries = true →
    call.chunk done < zoneSize
  sealed : ∀ b, ∀ p ∈ s.buckets b, (s.pages p).hdr.tag = .sealed →
    ∃ t, (s.fg t).retrying = some p ∨ (s.fg t).detaching = some p
  unsealed : ∀ t call done pc p, s.fg t = .scrap call done pc → pc.taken = some p →
    call.chunk done = zoneSize → (s.pages p).hdr.tag ≠ .sealed
  covered : ∀ p ∈ s.s1.pages ++ s.q1, Indexed s (s.pages p).base ∨ Seeking s (s.pages p).base
  whole : ∀ t, ∀ base ∈ (s.fg t).bornFull, ∀ q ∈ s.s1.pages ++ s.q1, (s.pages q).base ≠ base

namespace Serial

theorem init (cfg : Config) (file : File) (scratch : Nat → UInt8) :
    Serial (Engine.init n cfg file scratch) := by
  constructor <;> simp [Engine.init, Apart, Fg.call, Fg.bornFull, Stage1.pages]

theorem noOvertaking (serial : Serial s) (label : Label n) : NoOvertaking s label := by
  cases label with
  | fg t => exact serial.whole t
  | _ => trivial

variable (serial : Serial s) (scheduled : Scheduled cfg s) (move : Move cfg s label s')
include serial scheduled move

theorem retrying_kept : ∀ t call done pc, s'.fg t = .scrap call done pc → pc.retries = true →
    call.chunk done < zoneSize := by
  intro t call done pc after retries
  rcases retries_cases move after retries with
    ⟨pc', before, retries⟩ | ⟨p, created, decision, position, way, retry⟩
  · exact serial.retrying t call done pc' before retries
  · have room := call.intra_add_chunk_le done
    by_contra big
    have whole : call.chunk done = zoneSize := by omega
    -- A sealed page is not taken for a whole zone, and a whole zone always fits.
    have accepts : (scrapPageMerge cfg.maxEntries (s.pages p) (call.cells done) (call.intra done)
        (call.chunk done)).1 = .ok := by
      rw [whole]
      exact scrapPageMerge_of_whole cfg.maxEntries_pos (scheduled.sound.ready.wellFormed p) (by omega)
    cases way with
    | seen tag => exact serial.unsealed t call done _ p position rfl whole tag
    | overflow _ rejected | overflowPush _ rejected => simp [rejected] at accepts
    | full | fullPush | partialPush | stay => simp at retry

theorem sealed_kept : ∀ b, ∀ p ∈ s'.buckets b, (s'.pages p).hdr.tag = .sealed →
    ∃ t, (s'.fg t).retrying = some p ∨ (s'.fg t).detaching = some p := by
  intro b p linked sealed
  rcases sealing_cases move sealed with before | ⟨t, call, done, created, -, retrying⟩
  · rcases linked_before move linked with old | ⟨rfl, opened⟩
    · obtain ⟨t, holds⟩ := serial.sealed b p old before
      exact ⟨t, gives_up_onward scheduled.toOrdinary move old linked holds⟩
    · simp [opened] at sealed
  · exact ⟨t, .inl retrying⟩

theorem unsealed_kept : ∀ t call done pc p, s'.fg t = .scrap call done pc → pc.taken = some p →
    call.chunk done = zoneSize → (s'.pages p).hdr.tag ≠ .sealed := by
  intro t call done pc p after taken whole sealed
  have ready := scheduled.sound.ready
  -- Nobody else works on the zone, so nobody else seals a page of it.
  have rival : ∀ {u : Fin n} {other : Call} {done' : Nat} {pc₁ pc₂ : ChunkPc}, u ≠ t →
      s.fg t = .scrap call done pc₁ → s.fg u = .scrap other done' pc₂ → pc₂.target = some p →
      (s.pages p).base = call.base done → False := by
    intro u other done' pc₁ pc₂ differs mine theirs aims base
    refine serial.apart.no_rival ready differs.symm mine whole theirs ?_
    rw [← scheduled.aimed u other done' pc₂ p theirs aims, base]
  rcases taken_cases move after taken with ⟨pc', before, took⟩ | 
      ⟨position, -, ⟨pages, linked, base⟩ | ⟨-, opened⟩⟩
  · have base : (s.pages p).base = call.base done :=
      scheduled.aimed t call done pc' p before (ChunkPc.target_of_taken took)
    rcases sealing_cases move sealed with old | ⟨u, other, done', created, theirs, retrying⟩
    · exact serial.unsealed t call done pc' p before took whole old
    · by_cases same : u = t
      · -- The thread itself went on to retry.
        subst same
        rw [after, ChunkPc.retrying_of_taken taken] at retrying
        simp at retrying
      · exact rival same before theirs rfl base
  · rw [pages] at sealed
    obtain ⟨u, holds⟩ := serial.sealed _ p linked sealed
    obtain ⟨other, done', pc', theirs, aims, busy⟩ := Fg.position_of_giving_up holds
    refine rival ?_ position theirs aims base
    rintro rfl
    obtain ⟨-, -, rfl⟩ := Fg.scrap.inj (position.symm.trans theirs)
    simp [ChunkPc.target] at aims
  · simp [opened] at sealed

/-- As long as an older page of its base waits for Stage-1, a page leaves the index only through
a writer that comes back. -/
theorem indexed_kept (next : Scheduled cfg s') (allocates : label.allocates = true) {p q : PageId}
    (old : p < s.created) (late : p ∈ s'.s1.pages ++ s'.q1)
    (linked : q ∈ s.buckets (piHash (s.pages p).base))
    (same : (s.pages q).base = (s.pages p).base) :
    Indexed s' (s.pages p).base ∨ Seeking s' (s.pages p).base := by
  have sound := scheduled.sound
  have bases := base_stable (sound.refines move)
  have alive := (sound.owned.indexed _ q linked).1
  have newest : p ≤ q := scheduled.newest _ q linked p old same.symm
  have queued : p ∈ s'.custody.pipe := Custody.mem_pipe_of_waiting (List.mem_append_right _ late)
  rcases unlinked_cases sound move linked with
    stays | ⟨t, call, done, r, -, position, target⟩ | unlinked | freed
  · exact .inl ⟨q, stays, by rw [bases q alive.1, same]⟩
  · have found := List.find?_some target
    have hit : s.addr q = s.addr r := by simpa using found
    obtain rfl : q = r := scheduled.pointed (.fg t) r (role_at position) q alive hit
    have base : (s.pages q).base = call.base done := scheduled.aimed t call done _ q position rfl
    refine (seeking_step move allocates ⟨t, call, done, _, position, rfl, ?_, ?_⟩).symm
    · rw [← base, same]
    · exact serial.retrying t call done _ position rfl
  · -- Stage-2 would be ahead of Stage-1 with a newer page.
    have sorted := next.orderly.sorted
    have split : s'.custody.pipe =
        (s'.s2.tagged ++ [q] ++ (s'.s2.kept ++ s'.q2)) ++ (s'.s1.pages ++ s'.q1) := by
      simp [Custody.pipe, Custody.waiting, Engine.custody, unlinked]
    rw [split] at sorted
    have order := (List.pairwise_append.mp sorted).2.2 q (by simp) p late
    have base : (s'.pages q).base = (s'.pages p).base := by rw [bases q alive.1, bases p old, same]
    exact absurd (order base) (Nat.not_lt.mpr newest)
  · have live : s'.freed p = false := (next.sound.owned.live p queued).2
    rcases Nat.lt_or_eq_of_le newest with older | rfl
    · have retired := next.orderly.retired q freed p older
        (show (s'.pages p).base = (s'.pages q).base by rw [bases q alive.1, bases p old, same])
      exact absurd (live.symm.trans retired) (by simp)
    · exact absurd (live.symm.trans freed) (by simp)

theorem covered_kept (next : Scheduled cfg s') (allocates : label.allocates = true) :
    ∀ p ∈ s'.s1.pages ++ s'.q1, Indexed s' (s'.pages p).base ∨ Seeking s' (s'.pages p).base := by
  intro p late
  have sound := scheduled.sound
  have bases := base_stable (sound.refines move)
  rcases late_cases move late with before | ⟨buckets, o, e, pushes, -⟩
  · have old : p < s.created :=
      (sound.owned.live p (Custody.mem_pipe_of_waiting (List.mem_append_right _ before))).1
    rw [bases p old]
    rcases serial.covered p before with ⟨q, linked, same⟩ | seeking
    · exact serial.indexed_kept scheduled move next allocates old late linked same
    · exact (seeking_step move allocates seeking).symm
  · have carried : (s.custody.role o).carried = some p := by rw [pushes]; rfl
    have linked := scheduled.orderly.linked o p carried
    have old := (sound.owned.outside_of_carried carried).1.1
    exact .inl ⟨p, by rw [bases p old, buckets]; exact linked, rfl⟩

theorem whole_kept : ∀ t, ∀ base ∈ (s'.fg t).bornFull, ∀ q ∈ s'.s1.pages ++ s'.q1,
    (s'.pages q).base ≠ base := by
  intro t base bornFull q late same
  have sound := scheduled.sound
  have bases := base_stable (sound.refines move)
  obtain ⟨call, done, p, after, whole, rfl⟩ := Fg.position_of_bornFull bornFull
  have rival : ∀ {u : Fin n} {other : Call} {done' : Nat} {pc pc' : ChunkPc}, u ≠ t →
      s.fg t = .scrap call done pc → s.fg u = .scrap other done' pc' →
      other.base done' ≠ call.base done := fun differs mine theirs =>
    serial.apart.no_rival sound.ready differs.symm mine whole theirs
  rcases late_cases move late with before | ⟨-, o, e, pushes, -⟩
  · have old : q < s.created :=
      (sound.owned.live q (Custody.mem_pipe_of_waiting (List.mem_append_right _ before))).1
    rw [bases q old] at same
    rcases held_fresh_cases move after with still | ⟨position, absent⟩
    · refine serial.whole t (call.base done) ?_ q before same
      rw [still]
      simp [Fg.bornFull, whole]
    · rcases serial.covered q before with ⟨r, linked, other⟩ | ⟨u, other, done', pc, theirs, -, base, short⟩
      · rw [same] at linked other
        have missing := List.find?_eq_none.mp absent r linked
        simp [other] at missing
      · refine rival ?_ position theirs (base.trans same)
        rintro rfl
        obtain ⟨rfl, rfl, -⟩ := Fg.scrap.inj (position.symm.trans theirs)
        omega
  · have carried : (s.custody.role o).carried = some q := by rw [pushes]; rfl
    have old := (sound.owned.outside_of_carried carried).1.1
    rw [bases q old] at same
    cases o with
    | closer =>
      -- No writer is left once `nox_close` walks the index.
      have idle : s'.fg t = .idle := (sound.move move).phases.idle (by
        have started : 0 < s.closer.phase := Closer.phase_of_pushing pushes
        exact lt_of_lt_of_le started (phase_mono move)) t
      simp [idle] at after
    | fg u =>
      obtain ⟨other, done', pc, theirs, aims⟩ := Fg.position_of_pushing pushes
      have base := scheduled.aimed u other done' pc q theirs aims
      rcases held_fresh_cases move after with still | ⟨position, -⟩
      · refine rival ?_ still theirs (by rw [← base, same])
        rintro rfl
        obtain ⟨-, -, rfl⟩ := Fg.scrap.inj (still.symm.trans theirs)
        simp [Engine.custody, still, Fg.role, ChunkPc.role] at pushes
      · refine rival ?_ position theirs (by rw [← base, same])
        rintro rfl
        obtain ⟨-, -, rfl⟩ := Fg.scrap.inj (position.symm.trans theirs)
        simp [ChunkPc.target] at aims

theorem step (next : Scheduled cfg s') (meets : NonOverlap s label)
    (allocates : label.allocates = true) : Serial s' where
  apart := serial.apart.step move meets
  retrying := serial.retrying_kept scheduled move
  sealed := serial.sealed_kept scheduled move
  unsealed := serial.unsealed_kept scheduled move
  covered := serial.covered_kept scheduled move next allocates
  whole := serial.whole_kept scheduled move

end Serial

/-! ## Along a run -/

/-- `scrap_page_alloc` returns no address that it returned before. -/
def FreshAddress (s : Engine n) : Label n → Prop
  | .alloc _ address _ => ∀ q < s.created, s.addr q ≠ address
  | _ => True

instance (s : Engine n) (label : Label n) : Decidable (FreshAddress s label) :=
  match label with
  | .alloc _ address _ => inferInstanceAs (Decidable (∀ q < s.created, s.addr q ≠ address))
  | .call _ _ | .fg _ | .oom _ | .pwrite _ _ | .stage1 | .pread _ | .stage2 | .pwritev _ | .close
  | .closer | .closeFd _ => inferInstanceAs (Decidable True)

theorem safe_of_fresh (sound : Sound cfg s) (fresh : FreshAddress s label) :
    SafeAddress s label := by
  cases label with
  | alloc t address zone =>
    intro u p detaching
    have rights := sound.owned.rights (.fg u)
    rw [show s.custody.role (.fg u) = .points p from Fg.points_of_detaching detaching] at rights
    exact fresh p rights
  | _ => trivial

/-- No call is in progress when one starts. -/
def Alone (s : Engine n) : Label n → Bool
  | .call _ _ => decide (∀ t, (s.fg t).isIdle = true)
  | _ => true

theorem nonOverlap_of_alone (alone : Alone s label = true) : NonOverlap s label := by
  cases label with
  | call t call =>
    intro u other busy
    have idle := of_decide_eq_true alone u
    cases position : s.fg u <;> simp_all [Fg.isIdle, Fg.call]
  | _ => trivial

/-- Calls that overlap in time share no byte, no allocation fails, and no address is reused while
somebody is going to detach the page that had it. -/
structure Cooperative (s : Engine n) (label : Label n) : Prop where
  safe : SafeAddress s label
  apart : NonOverlap s label
  allocates : label.allocates = true

/-- A cooperative step that latches no error. -/
def Smooth (cfg : Config) (s : Engine n) (label : Label n) : Prop :=
  Cooperative s label ∧ ∀ next, s.step cfg label = some next → next.ioErr = false

theorem smooth_of_run (run : Run (Engine.step cfg) Cooperative (Engine.init n cfg file scratch) s)
    (clean : s.ioErr = false) :
    Run (Engine.step cfg) (Smooth cfg) (Engine.init n cfg file scratch) s :=
  run.backward (fun s => s.ioErr = false) clean fun stepped clean =>
    ioErr_mono (move_of_step stepped) clean

/-- What holds in every state of a smooth run. -/
structure Steady (cfg : Config) (s : Engine n) : Prop where
  scheduled : Scheduled cfg s
  recorded : Recorded s
  serial : Serial s

theorem Steady.init (cfg : Config) (file : File) (scratch : Nat → UInt8) :
    Steady cfg (Engine.init n cfg file scratch) :=
  ⟨.init cfg file scratch, .init cfg file scratch, .init cfg file scratch⟩

theorem Steady.step (steady : Steady cfg s) (smooth : Smooth cfg s label)
    (stepped : s.step cfg label = some s') : Steady cfg s' := by
  have move := move_of_step stepped
  obtain ⟨⟨safe, apart, allocates⟩, clean⟩ := smooth
  have clean := clean s' stepped
  have next := steady.scheduled.step move safe (steady.serial.noOvertaking label) clean
  exact ⟨next, steady.recorded.step steady.scheduled.sound steady.scheduled.unstranded move clean,
    steady.serial.step steady.scheduled move next apart allocates⟩

theorem steady_of_run {condition : Engine n → Label n → Prop}
    (smooth : ∀ s label, condition s label → Smooth cfg s label)
    (run : Run (Engine.step cfg) condition (Engine.init n cfg file scratch) s) : Steady cfg s := by
  apply run.invariant (Steady cfg)
  · exact .init cfg file scratch
  · intro middle last label steady met stepped
    exact steady.step (smooth middle label met) stepped

end NoxDB

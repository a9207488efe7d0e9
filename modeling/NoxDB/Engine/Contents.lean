import NoxDB.Engine.Sound

/-! # What a step does to the contents of pages

A thread inside `scrap_write_chunk` works on a page of the base it computed.  The data
zone and the entries of a page change in two places only: the critical section of a
writer that holds the page lock merges a chunk, and Stage-1 fills the holes of the
page in its hand.  Everything said about contents rests on this case split.
-/

namespace NoxDB

open Function (update)

variable {n : Nat}

/-! ## The page a thread works on -/

/-- The page that `scrap_write_chunk` has a pointer to. -/
def ChunkPc.target : ChunkPc → Option PageId
  | .lockPage p | .held p _ | .enqueue p _ _ | .unlock p _ | .detach p => some p
  | .gate | .parked | .lookup => none

def Aimed (s : Engine n) : Prop :=
  ∀ t call done pc p, s.fg t = .scrap call done pc → pc.target = some p →
    (s.pages p).base = call.base done

section Aim

variable {cfg : Config} {s s' : Engine n} {label : Label n}

theorem target_lt_created (owned : s.custody.Ownership) {t : Fin n} {call : Call} {done : Nat}
    {pc : ChunkPc} {p : PageId} (position : s.fg t = .scrap call done pc)
    (target : pc.target = some p) : p < s.created := by
  have role : s.custody.role (.fg t) = pc.role (call.base done) := role_at position
  have rights := owned.rights (.fg t)
  rw [role] at rights
  cases pc with
  | gate | parked | lookup => simp [ChunkPc.target] at target
  | lockPage q =>
    obtain rfl : q = p := by simpa [ChunkPc.target] using target
    exact (owned.indexed _ q rights.1).1.1
  | held q created | enqueue q e after | unlock q after =>
    obtain rfl : q = p := by simpa [ChunkPc.target] using target
    exact rights.1.1
  | detach q =>
    obtain rfl : q = p := by simpa [ChunkPc.target] using target
    exact rights

/-- The thread that moved is aimed, and the others are because bases never change. -/
theorem Aimed.update (aimed : Aimed s) (owned : s.custody.Ownership)
    (bases : ∀ p < s.created, (s'.pages p).base = (s.pages p).base) {t : Fin n} {f : Fg}
    (fg : s'.fg = update s.fg t f)
    (mine : ∀ call done pc p, f = .scrap call done pc → pc.target = some p →
      (s'.pages p).base = call.base done) : Aimed s' := by
  intro other call done pc p position target
  rw [fg] at position
  by_cases same : other = t
  · subst same
    exact mine call done pc p (by simpa using position) target
  · have position : s.fg other = .scrap call done pc := by simpa [same] using position
    rw [bases p (target_lt_created owned position target)]
    exact aimed other call done pc p position target

theorem Aimed.fg (aimed : Aimed s) (owned : s.custody.Ownership) (move : FgMove cfg s label s') :
    Aimed s' := by
  have bases := base_stable (refines_fg owned move)
  -- A thread that keeps its page and its place in the call.
  have keeps : ∀ {t : Fin n} {call : Call} {done : Nat} {pc pc' : ChunkPc},
      s.fg t = .scrap call done pc → s'.fg = Function.update s.fg t (.scrap call done pc') →
      (∀ p, pc'.target = some p → pc.target = some p) → Aimed s' := by
    intro t call done pc pc' position fg target
    refine aimed.update owned bases fg ?_
    rintro _ _ _ p ⟨⟩ aims
    rw [bases p (target_lt_created owned position (target p aims))]
    exact aimed t call done pc p position (target p aims)
  cases move with
  | callZero => exact aimed
  | callDirect | oomPage | oomDirect | unlockDone | pwrite =>
    exact aimed.update owned bases rfl (by rintro _ _ _ _ ⟨⟩)
  | callScrap | gatePass | gatePark | parkedPass | unlockMore | detach =>
    refine aimed.update owned bases rfl ?_
    rintro _ _ _ p ⟨⟩ ⟨⟩
  | @lookupFound t call done p position free found =>
    refine aimed.update owned bases rfl ?_
    rintro _ _ _ _ ⟨⟩ ⟨⟩
    simpa using List.find?_some found
  | alloc =>
    refine aimed.update owned bases rfl ?_
    rintro _ _ _ _ ⟨⟩ ⟨⟩
    simp [scrapPageAlloc]
  | lockPage position | partialInc position | partialPush position | fullInc position
  | fullEnter position | fullPush position | unlockRetry position =>
    exact keeps position rfl fun p target => target
  | @decide t call done p created position decision decided =>
    refine keeps position rfl fun q target => ?_
    rw [Decision.next] at target
    cases pushes : decision.enqueue <;> rw [pushes] at target <;> exact target

theorem Sound.aimed_step (sound : Sound cfg s) (aimed : Aimed s) (move : Move cfg s label s') :
    Aimed s' := by
  have bases := base_stable (sound.refines move)
  have same : s'.fg = s.fg → Aimed s' := fun fg t call done pc p position target => by
    rw [fg] at position
    rw [bases p (target_lt_created sound.owned position target)]
    exact aimed t call done pc p position target
  cases move with
  | fg move => exact aimed.fg sound.owned move
  | stage1 move => exact same (by cases move <;> rfl)
  | stage2 move => exact same (by cases move <;> rfl)
  | closer move => exact same (by cases move <;> rfl)

end Aim

/-! ## Creation -/

/-- A page is created by `page_index_get_or_create`, one at a time, and is blank. -/
theorem created_cases {cfg : Config} {s s' : Engine n} {label : Label n}
    (move : Move cfg s label s') :
    s'.created = s.created ∨ s'.created = s.created + 1 ∧
      ∃ (t : Fin n) (call : Call) (done : Nat) (zone : Nat → UInt8),
      s.fg t = .scrap call done .lookup ∧
      s'.pages s.created = scrapPageAlloc (call.base done) 0 fun x => ⟨zone x, .uninit⟩ := by
  cases move with
  | fg move =>
    cases move with
    | @alloc t call done address zone position =>
      exact .inr ⟨rfl, t, call, done, zone, position, by simp⟩
    | _ => exact .inl rfl
  | stage1 move => exact .inl (by cases move <;> rfl)
  | stage2 move => exact .inl (by cases move <;> rfl)
  | closer move => exact .inl (by cases move <;> rfl)

theorem created_mono {cfg : Config} {s s' : Engine n} {label : Label n}
    (move : Move cfg s label s') : s.created ≤ s'.created := by
  rcases created_cases move with same | ⟨grown, -⟩ <;> omega

/-- A page is older than a step, or the step created it. -/
theorem old_or_new {cfg : Config} {s s' : Engine n} {label : Label n} (move : Move cfg s label s')
    {p : PageId} (current : p < s'.created) :
    p < s.created ∨ ∃ (t : Fin n) (call : Call) (done : Nat) (zone : Nat → UInt8),
      s.fg t = .scrap call done .lookup ∧
      s'.pages p = scrapPageAlloc (call.base done) 0 fun x => ⟨zone x, .uninit⟩ := by
  rcases created_cases move with same | ⟨grown, t, call, done, zone, position, page⟩
  · exact .inl (same ▸ current)
  · rcases Nat.lt_succ_iff_lt_or_eq.mp (grown ▸ current) with old | rfl
    · exact .inl old
    · exact .inr ⟨t, call, done, zone, position, page⟩

/-! ## How contents change -/

/-- A merge that returned `SCRAP_OK`. -/
structure Merge where
  page : PageId
  offset : Nat
  len : Nat
  cells : Nat → Cell

def Event.merge? : Event n → Option Merge
  | .merged p offset len cells => some ⟨p, offset, len, cells⟩
  | _ => none

/-- The merges of the history, newest first. -/
def Engine.merges (s : Engine n) : List Merge := s.log.filterMap Event.merge?

/-- The page keeps its contents. -/
structure ScrapPage.SameContents (page page' : ScrapPage Cell) : Prop where
  base : page'.base = page.base
  data : page'.data = page.data
  entries : page'.hdr.entries = page.hdr.entries

theorem ScrapPage.SameContents.refl (page : ScrapPage Cell) : page.SameContents page :=
  ⟨rfl, rfl, rfl⟩

theorem ScrapPage.SameContents.covered {page page' : ScrapPage Cell}
    (same : page.SameContents page') (x : Nat) : page'.Covered x ↔ page.Covered x := by
  rw [ScrapPage.Covered, ScrapPage.Covered, same.entries]

/-- The event neither merges a chunk nor touches the device. -/
def Event.plain : Event n → Bool
  | .merged _ _ _ _ | .issued _ _ _ | .wrote _ | .wroteDirect _ _ _ => false
  | _ => true

/-- What a step does to the contents of pages, to the file and to the history. -/
inductive Effect (cfg : Config) (s : Engine n) (label : Label n) (s' : Engine n) : Prop where
  | quiet (events : List (Event n)) (log : s'.log = events ++ s.log)
      (plain : ∀ event ∈ events, event.plain = true) (file : s'.file = s.file)
      (pages : ∀ p < s.created, (s.pages p).SameContents (s'.pages p))
  | merge {t call done p created decision}
      (position : s.fg t = .scrap call done (.held p created))
      (way : Decided cfg (s.pages p) created (call.cells done) (call.intra done) (call.chunk done)
        decision)
      (accepted : decision.merged = true) (after before : List (Event n))
      (log : s'.log =
        after ++ .merged p (call.cur done) (call.chunk done) (call.cells done) :: (before ++ s.log))
      (plain : ∀ event ∈ after ++ before, event.plain = true) (file : s'.file = s.file)
      (pages : s'.pages = update s.pages p decision.page)
  | fill {p} (position : s.s1 = .finish p true) (free : s.lock p = none) (log : s'.log = s.log)
      (file : s'.file = s.file)
      (pages : s'.pages = update s.pages p
        ((scrapPageApplyHoles cfg.maxEntries (s.pages p) s.scratch).retag .full))
  | direct {t call result} (step : label = .pwrite t result) (position : s.fg t = .direct call)
      (fits : result.Fits call.offset call.size)
      (file : s'.file = s.file.pwrite call.offset result.landed call.buf)
      (log : s'.log = .returned t call (if result = .ok call.size then .ok else .eio) ::
        .wroteDirect call.offset result.landed call.buf :: s.log)
      (pages : s'.pages = s.pages)
  | writeback {batch st result after} (position : s.s2 = .writing batch st)
      (fits : result.Fits ((s.pages (batch.headD 0)).base + st.i * zoneSize)
        ((batch.drop st.i).length * zoneSize))
      (outcome : after = pwritevAfter (batch.map fun _ => zoneSize) st result)
      (file : s'.file =
        s.file.pwrite ((s.pages (batch.headD 0)).base + st.i * zoneSize) result.landed fun k =>
          (gather ((batch.drop st.i).map fun p => (s.pages p).data) k).val)
      (log : s'.log = ((completedPages batch st after).map Event.wrote).reverse ++
        .issued ((s.pages (batch.headD 0)).base + st.i * zoneSize) (batch.drop st.i)
          ((batch.drop st.i).map fun p => (s.pages p).data) :: s.log)
      (pages : s'.pages = s.pages)

variable {cfg : Config} {s s' : Engine n} {label : Label n}

/-- What Stage-1's fill leaves covers the zone. -/
theorem covered_filled (page : ScrapPage Cell) (scratch : Nat → Cell) (tag : Tag) (x : Nat) :
    ((scrapPageApplyHoles cfg.maxEntries page scratch).retag tag).Covered x ↔ x < zoneSize := by
  change (scrapPageApplyHoles cfg.maxEntries page scratch).Covered x ↔ x < zoneSize
  exact scrapPageApplyHoles_covered scratch x

/-- What Stage-1's fill leaves holds the user bytes, and the scratch zone where there are none. -/
theorem data_filled {page : ScrapPage Cell} (scratch : Nat → Cell) (tag : Tag)
    (wellFormed : page.WellFormed cfg.maxEntries) {x : Nat} (inside : x < zoneSize) :
    ((scrapPageApplyHoles cfg.maxEntries page scratch).retag tag).data x =
      if page.Covered x then page.data x else scratch x :=
  scrapPageApplyHoles_data scratch wellFormed inside

theorem sameContents_update {p : PageId} {page : ScrapPage Cell}
    (same : (s.pages p).SameContents page) (q : PageId) :
    (s.pages q).SameContents (update s.pages p page q) := by
  by_cases isP : q = p
  · subst isP; simpa using same
  · simpa [isP] using .refl _

/-- What the critical section records besides its merge. -/
theorem chunkEvents_split (t : Fin n) (p : PageId) (call : Call) (done : Nat)
    (decision : Decision) :
    ∃ after before : List (Event n), (∀ event ∈ after ++ before, event.plain = true) ∧
      chunkEvents t p call done decision = after ++
        (if decision.merged then [.merged p (call.cur done) (call.chunk done) (call.cells done)]
          else []) ++ before := by
  refine ⟨_, _, ?_, by rw [chunkEvents, List.append_assoc, List.append_assoc]⟩
  intro event member
  simp only [List.mem_append] at member
  rcases member with member | member | member <;> split at member <;>
    simp_all [Event.plain]

theorem Decided.sameContents {page : ScrapPage Cell} {created : Bool} {cells : Nat → Cell}
    {intra len : Nat} {decision : Decision}
    (way : Decided cfg page created cells intra len decision) (rejected : decision.merged = false) :
    page.SameContents decision.page := by
  cases way with
  | seen | overflow | overflowPush => exact ⟨rfl, rfl, rfl⟩
  | full | fullPush | partialPush | stay => simp at rejected

theorem effect_fg (move : FgMove cfg s label s') : Effect cfg s label s' := by
  cases move with
  | @decide t call done p created position decision decided =>
    have way := NoxDB.decided cfg (s.pages p) created (call.cells done) (call.intra done)
      (call.chunk done)
    rw [← decided] at way
    obtain ⟨after, before, plain, events⟩ := chunkEvents_split t p call done decision
    cases accepted : decision.merged with
    | true =>
      refine .merge position way accepted after before ?_ plain rfl rfl
      simp only [events, accepted, if_true]
      simp
    | false =>
      refine .quiet _ rfl (fun event member => ?_) rfl fun q _ =>
        sameContents_update (way.sameContents accepted) q
      rw [events, accepted] at member
      exact plain event (by simpa using member)
  | alloc =>
    refine .quiet [_] rfl (by simp [Event.plain]) rfl fun q old => ?_
    have differs : q ≠ s.created := Nat.ne_of_lt old
    simpa [differs] using .refl _
  | detach =>
    refine .quiet _ rfl (fun event member => ?_) rfl fun _ _ => .refl _
    obtain ⟨q, -, rfl⟩ := List.mem_map.mp member
    rfl
  | pwrite position fits => exact .direct rfl position fits rfl rfl rfl
  | callZero | oomPage | oomDirect | unlockDone =>
    exact .quiet [_] rfl (by simp [Event.plain]) rfl fun _ _ => .refl _
  | _ => exact .quiet [] rfl (by simp) rfl fun _ _ => .refl _

theorem effect_stage1 (move : Stage1Move cfg s label s') : Effect cfg s label s' := by
  cases move with
  | fill position free page filled => subst filled; exact .fill position free rfl rfl rfl
  | @drop p =>
    have same : (s.pages p).SameContents { s.pages p with inQueue := false } := ⟨rfl, rfl, rfl⟩
    exact .quiet [] rfl (by simp) rfl fun q _ => sameContents_update same q
  | inspectHoles => exact .quiet [_] rfl (by simp [Event.plain]) rfl fun _ _ => .refl _
  | _ => exact .quiet [] rfl (by simp) rfl fun _ _ => .refl _

theorem effect_stage2 (move : Stage2Move s label s') : Effect cfg s label s' := by
  cases move with
  | @unlink done p todo =>
    have same : (s.pages p).SameContents { s.pages p with detached := true } := ⟨rfl, rfl, rfl⟩
    exact .quiet [] rfl (by simp) rfl fun q _ => sameContents_update same q
  | @tag done p todo =>
    have same : (s.pages p).SameContents
        { s.pages p with hdr := { (s.pages p).hdr with tag := .flushing }, inQueue := false } :=
      ⟨rfl, rfl, rfl⟩
    exact .quiet [] rfl (by simp) rfl fun q _ => sameContents_update same q
  | free => exact .quiet [_] rfl (by simp [Event.plain]) rfl fun _ _ => .refl _
  | pwritev position fits after outcome => exact .writeback position fits outcome rfl rfl rfl
  | _ => exact .quiet [] rfl (by simp) rfl fun _ _ => .refl _

theorem effect_closer (move : CloserMove s label s') : Effect cfg s label s' := by
  cases move with
  | @sweepLock err bucket p position alive free page enqueue chosen =>
    have same : (s.pages p).SameContents page := by
      rw [show page = (Engine.enqueueOne (s.pages p)).1 from congrArg Prod.fst chosen]
      simp only [Engine.enqueueOne, enqueueFull, enqueuePartial]
      split <;> split <;> exact ⟨rfl, rfl, rfl⟩
    exact .quiet [] rfl (by simp) rfl fun q _ => sameContents_update same q
  | destroy =>
    refine .quiet _ rfl (fun event member => ?_) rfl fun _ _ => .refl _
    obtain ⟨q, -, rfl⟩ := List.mem_map.mp member
    rfl
  | _ => exact .quiet [] rfl (by simp) rfl fun _ _ => .refl _

theorem effect (move : Move cfg s label s') : Effect cfg s label s' := by
  cases move with
  | fg move => exact effect_fg move
  | stage1 move => exact effect_stage1 move
  | stage2 move => exact effect_stage2 move
  | closer move => exact effect_closer move

/-! ## Consequences -/

theorem Event.merge?_of_plain {event : Event n} (plain : event.plain = true) :
    event.merge? = none := by
  cases event <;> simp_all [Event.plain, Event.merge?]

theorem merges_of_plain {events : List (Event n)} (plain : ∀ event ∈ events, event.plain = true) :
    events.filterMap Event.merge? = [] :=
  List.filterMap_eq_nil_iff.mpr fun event member => Event.merge?_of_plain (plain event member)

/-- The history grows. -/
theorem log_grows (move : Move cfg s label s') : ∃ events, s'.log = events ++ s.log := by
  cases effect move with
  | quiet events log => exact ⟨events, log⟩
  | merge _ _ _ after before log =>
    exact ⟨after ++ [_] ++ before, by rw [log, List.append_cons, List.append_assoc _ before]⟩
  | fill _ _ log => exact ⟨[], log⟩
  | direct _ _ _ _ log => exact ⟨[_, _], log⟩
  | writeback _ _ _ _ log => exact ⟨_ ++ [_], by rw [log]; exact List.append_cons _ _ _⟩

theorem log_mono (move : Move cfg s label s') {event : Event n} (member : event ∈ s.log) :
    event ∈ s'.log := by
  obtain ⟨events, log⟩ := log_grows move
  rw [log]
  exact List.mem_append_right _ member

/-- Contents change by a merge or by a fill, or not at all. -/
inductive ContentStep (cfg : Config) (s s' : Engine n) : Prop where
  | kept (pages : ∀ p < s.created, (s.pages p).SameContents (s'.pages p))
      (merges : s'.merges = s.merges)
  | merge {t call done p created decision}
      (position : s.fg t = .scrap call done (.held p created))
      (way : Decided cfg (s.pages p) created (call.cells done) (call.intra done) (call.chunk done)
        decision)
      (accepted : decision.merged = true) (pages : s'.pages = update s.pages p decision.page)
      (merges : s'.merges = ⟨p, call.cur done, call.chunk done, call.cells done⟩ :: s.merges)
  | fill {p} (position : s.s1 = .finish p true) (free : s.lock p = none)
      (pages : s'.pages = update s.pages p
        ((scrapPageApplyHoles cfg.maxEntries (s.pages p) s.scratch).retag .full))
      (merges : s'.merges = s.merges)

theorem content_step (move : Move cfg s label s') : ContentStep cfg s s' := by
  cases effect move with
  | quiet events log plain _ pages =>
    refine .kept pages ?_
    rw [Engine.merges, log, List.filterMap_append, merges_of_plain plain]
    rfl
  | merge position way accepted after before log plain _ pages =>
    refine .merge position way accepted pages ?_
    have first := merges_of_plain fun event member => plain event (List.mem_append_left _ member)
    have last := merges_of_plain fun event member => plain event (List.mem_append_right _ member)
    rw [Engine.merges, log, List.filterMap_append, first, List.nil_append, List.filterMap_cons]
    simp only [Event.merge?, List.filterMap_append, last]
    rfl
  | fill position free log _ pages =>
    exact .fill position free pages (congrArg (List.filterMap Event.merge?) log)
  | direct _ _ _ _ log pages =>
    refine .kept (fun p _ => by rw [pages]; exact .refl _) ?_
    rw [Engine.merges, log]
    rfl
  | @writeback batch st result after _ _ _ _ log pages =>
    refine .kept (fun p _ => by rw [pages]; exact .refl _) ?_
    have wrote : ((completedPages batch st after).map (Event.wrote (n := n))).reverse.filterMap
        Event.merge? = [] := by
      rw [List.filterMap_eq_nil_iff]
      intro event among
      obtain ⟨p, -, rfl⟩ := List.mem_map.mp (List.mem_reverse.mp among)
      rfl
    rw [Engine.merges, log, List.filterMap_append, wrote]
    rfl

end NoxDB

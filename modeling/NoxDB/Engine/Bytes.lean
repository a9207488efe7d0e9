import NoxDB.Engine.Generations

/-! # One byte of the file

What the history says about a file offset: the latest write to it, by a merge into a
page or by a direct write.  A step changes at most one of three things for an offset:
the latest write, the cell of one page, or the byte of the file.
-/

namespace NoxDB

open Function (update)

variable {n : Nat}

/-- What the event writes to file offset `y`: the page that took it, none for a direct write, and
the byte. -/
def Event.lands (y : Nat) : Event n → Option (Option PageId × UInt8)
  | .merged p offset len cells =>
    if offset ≤ y ∧ y < offset + len then some (some p, (cells (y - offset)).val) else none
  | .wroteDirect offset len bytes =>
    if offset ≤ y ∧ y < offset + len then some (none, bytes (y - offset)) else none
  | _ => none

/-- The latest write to file offset `y`, counting what the file held at first as a direct one. -/
def Engine.latest (s : Engine n) (file : File) (y : Nat) : Option PageId × UInt8 :=
  (s.log.findSome? (Event.lands y)).getD (none, file.byte y)

/-- Page `p` has a byte for file offset `y`. -/
structure Engine.Carries (s : Engine n) (p : PageId) (y : Nat) : Prop where
  current : p < s.created
  window : s.InWindow p y
  covered : (s.pages p).Covered (y - (s.pages p).base)

/-- Page `p` keeps what it has for file offset `y`. -/
structure SameByte (s s' : Engine n) (p : PageId) (y : Nat) : Prop where
  before : s'.Carries p y → s.Carries p y
  after : s.Carries p y → s'.Carries p y ∧ s'.cellAt p y = s.cellAt p y

/-- What a step does about file offset `y`. -/
inductive ByteStep (file : File) (s : Engine n) (label : Label n) (s' : Engine n) (y : Nat) :
    Prop where
  | quiet (latest : s'.latest file y = s.latest file y) (byte : s'.file.byte y = s.file.byte y)
      (pages : ∀ p, SameByte s s' p y)
  | merge {t call done p created} (position : s.fg t = .scrap call done (.held p created))
      (inside : call.cur done ≤ y ∧ y < call.cur done + call.chunk done) (v : UInt8)
      (value : v = (call.cells done (y - call.cur done)).val)
      (latest : s'.latest file y = (some p, v)) (byte : s'.file.byte y = s.file.byte y)
      (carries : s'.Carries p y) (cell : s'.cellAt p y = ⟨v, .user y⟩)
      (pages : ∀ q ≠ p, SameByte s s' q y)
  | fill {p} (position : s.s1 = .finish p true) (window : s.InWindow p y)
      (hole : ¬ (s.pages p).Covered (y - (s.pages p).base))
      (latest : s'.latest file y = s.latest file y) (byte : s'.file.byte y = s.file.byte y)
      (carries : s'.Carries p y) (cell : s'.cellAt p y = s.scratch (y - (s.pages p).base))
      (pages : ∀ q ≠ p, SameByte s s' q y)
  | direct {t call result} (step : label = .pwrite t result) (position : s.fg t = .direct call)
      (inside : call.offset ≤ y ∧ y < call.offset + result.landed)
      (latest : s'.latest file y = (none, call.buf (y - call.offset)))
      (byte : s'.file.byte y = call.buf (y - call.offset)) (pages : ∀ p, SameByte s s' p y)
  | writeback {batch st q} (position : s.s2 = .writing batch st) (row : q ∈ batch.drop st.i)
      (window : s.InWindow q y) (latest : s'.latest file y = s.latest file y)
      (byte : s'.file.byte y = (s.cellAt q y).val) (pages : ∀ p, SameByte s s' p y)

/-! ## The latest write -/

section Latest

variable {s s' : Engine n} {file : File} {y : Nat}

theorem Event.lands_of_plain {event : Event n} (plain : event.plain = true) (y : Nat) :
    event.lands y = none := by
  cases event <;> simp_all [Event.plain, Event.lands]

theorem findSome_of_plain {events : List (Event n)} (plain : ∀ event ∈ events, event.plain = true)
    (y : Nat) : events.findSome? (Event.lands y) = none :=
  List.findSome?_eq_none_iff.mpr fun event member => Event.lands_of_plain (plain event member) y

theorem latest_of_silent (events : List (Event n)) (log : s'.log = events ++ s.log)
    (silent : events.findSome? (Event.lands y) = none) :
    s'.latest file y = s.latest file y := by
  rw [Engine.latest, log, List.findSome?_append, silent]
  rfl

theorem latest_of_landed (events : List (Event n)) (log : s'.log = events ++ s.log)
    {write : Option PageId × UInt8} (landed : events.findSome? (Event.lands y) = some write) :
    s'.latest file y = write := by
  rw [Engine.latest, log, List.findSome?_append, landed]
  rfl

end Latest

/-! ## One step -/

variable {cfg : Config} {file : File} {scratch : Nat → UInt8} {s s' : Engine n} {label : Label n}
  {y : Nat}

theorem Engine.Carries.same (move : Move cfg s label s') {p : PageId}
    (old : p < s.created) (same : (s.pages p).SameContents (s'.pages p)) :
    (s'.Carries p y ↔ s.Carries p y) ∧ s'.cellAt p y = s.cellAt p y := by
  refine ⟨⟨fun carries => ?_, fun carries => ?_⟩, by rw [Engine.cellAt, Engine.cellAt, same.base, same.data]⟩
  · have window := carries.window
    have covered := carries.covered
    rw [Engine.InWindow, same.base] at window
    rw [same.covered, same.base] at covered
    exact ⟨old, window, covered⟩
  · refine ⟨lt_of_lt_of_le old (created_mono move), ?_, ?_⟩
    · rw [Engine.InWindow, same.base]
      exact carries.window
    · rw [same.covered, same.base]
      exact carries.covered

/-- A page whose contents a step leaves alone keeps its bytes, and a page that it creates has
none. -/
theorem SameByte.of_contents (move : Move cfg s label s') {p : PageId}
    (same : p < s.created → (s.pages p).SameContents (s'.pages p)) : SameByte s s' p y := by
  refine ⟨fun carries => ?_, fun carries => ?_⟩
  · rcases old_or_new move carries.current with old | ⟨t, call, done, zone, -, page⟩
    · exact (Engine.Carries.same move old (same old)).1.mp carries
    · have covered := carries.covered
      rw [page] at covered
      simp [ScrapPage.Covered, scrapPageAlloc] at covered
  · have both := Engine.Carries.same (y := y) move carries.current (same carries.current)
    exact ⟨both.1.mpr carries, both.2⟩

theorem SameByte.of_pages (move : Move cfg s label s')
    (pages : s'.pages = s.pages) (p : PageId) : SameByte s s' p y :=
  .of_contents move fun _ => by rw [pages]; exact .refl _

theorem SameByte.of_update (move : Move cfg s label s') {p q : PageId}
    {page : ScrapPage Cell} (pages : s'.pages = update s.pages p page) (other : q ≠ p) :
    SameByte s s' q y :=
  .of_contents move fun _ => by
    rw [pages, Function.update_of_ne other]
    exact .refl _

section Merge

variable {t : Fin n} {call : Call} {done : Nat} {p : PageId} {created : Bool} {decision : Decision}
  (ordinary : Ordinary cfg s) (move : Move cfg s label s')
  (position : s.fg t = .scrap call done (.held p created))
  (way : Decided cfg (s.pages p) created (call.cells done) (call.intra done) (call.chunk done)
    decision)
  (accepted : decision.merged = true) (pages : s'.pages = update s.pages p decision.page)
include ordinary move position way accepted pages

/-- The bytes of the chunk are in the page. -/
theorem carries_of_merge (inside : call.cur done ≤ y ∧ y < call.cur done + call.chunk done) :
    s'.Carries p y ∧ s'.cellAt p y = call.cells done (y - call.cur done) := by
  have sound := ordinary.sound
  have more := sound.ready.progress t call done _ position
  have base : (s.pages p).base = call.base done := ordinary.aimed t call done _ p position rfl
  have place := call.base_add_intra done
  have room := call.intra_add_chunk_le done
  have current := target_lt_created sound.owned position rfl
  have base' : (s'.pages p).base = call.base done := by
    rw [pages, Function.update_self, way.base, base]
  have within : call.intra done ≤ y - call.base done ∧
      y - call.base done < call.intra done + call.chunk done := by omega
  refine ⟨⟨lt_of_lt_of_le current (created_mono move), ?_, ?_⟩, ?_⟩
  · rw [Engine.InWindow, base']
    omega
  · rw [base', pages, Function.update_self,
      way.covered (sound.ready.wellFormed p) (Call.chunk_pos more)]
    exact .inr ⟨accepted, within⟩
  · rw [Engine.cellAt, base', pages, Function.update_self, way.data, if_pos ⟨accepted, within⟩]
    congr 1
    omega

omit accepted in
/-- The other bytes of the page stay. -/
theorem sameByte_of_merge (outside : ¬ (call.cur done ≤ y ∧ y < call.cur done + call.chunk done)) :
    SameByte s s' p y := by
  have sound := ordinary.sound
  have more := sound.ready.progress t call done _ position
  have base : (s.pages p).base = call.base done := ordinary.aimed t call done _ p position rfl
  have place := call.base_add_intra done
  have current := target_lt_created sound.owned position rfl
  have base' : (s'.pages p).base = (s.pages p).base := by
    rw [pages, Function.update_self, way.base]
  have without : s.InWindow p y → ¬ (decision.merged = true ∧
      call.intra done ≤ y - (s.pages p).base ∧
      y - (s.pages p).base < call.intra done + call.chunk done) := by
    rintro ⟨low, high⟩ ⟨-, within⟩
    rw [base] at low high within
    omega
  refine ⟨fun carries => ?_, fun carries => ?_⟩
  · have window := carries.window
    have covered := carries.covered
    rw [Engine.InWindow, base'] at window
    rw [base', pages, Function.update_self,
      way.covered (sound.ready.wellFormed p) (Call.chunk_pos more)] at covered
    exact ⟨current, window, covered.resolve_right (without window)⟩
  · refine ⟨⟨lt_of_lt_of_le current (created_mono move), ?_, ?_⟩, ?_⟩
    · rw [Engine.InWindow, base']
      exact carries.window
    · rw [base', pages, Function.update_self,
        way.covered (sound.ready.wellFormed p) (Call.chunk_pos more)]
      exact .inl carries.covered
    · rw [Engine.cellAt, base', pages, Function.update_self, way.data,
        if_neg (without carries.window)]
      rfl

end Merge

/-- What Stage-1's fill leaves of a page for one file offset. -/
theorem byte_of_fill (sound : Sound cfg s) (move : Move cfg s label s') {p : PageId}
    (current : p < s.created) (pages : s'.pages = update s.pages p
      ((scrapPageApplyHoles cfg.maxEntries (s.pages p) s.scratch).retag .full))
    (window : s.InWindow p y) :
    s'.Carries p y ∧ s'.cellAt p y =
      if (s.pages p).Covered (y - (s.pages p).base) then s.cellAt p y
      else s.scratch (y - (s.pages p).base) := by
  have base : (s'.pages p).base = (s.pages p).base := base_stable (sound.refines move) p current
  have inside : y - (s.pages p).base < zoneSize := by
    have := window.1
    have := window.2
    omega
  refine ⟨⟨lt_of_lt_of_le current (created_mono move), ?_, ?_⟩, ?_⟩
  · rw [Engine.InWindow, base]
    exact window
  · rw [base, pages, Function.update_self, covered_filled]
    exact inside
  · rw [Engine.cellAt, base, pages, Function.update_self,
      data_filled _ _ (sound.ready.wellFormed p) inside]
    rfl

theorem byte_step (ordinary : Ordinary cfg s) (move : Move cfg s label s') (file : File) (y : Nat) :
    ByteStep file s label s' y := by
  have sound := ordinary.sound
  cases effect move with
  | quiet events log plain file pages =>
    refine .quiet (latest_of_silent _ log (findSome_of_plain plain y)) (by rw [file]) fun p => ?_
    exact .of_contents move (pages p)
  | @merge t call done p created decision position way accepted after before log plain same pages =>
    -- The other events of the step carry no user data.
    have silent := findSome_of_plain (fun event among => plain event (List.mem_append_left _ among)) y
    have quiet := findSome_of_plain (fun event among => plain event (List.mem_append_right _ among)) y
    have events : s'.log = (after ++ .merged p (call.cur done) (call.chunk done) (call.cells done) ::
        before) ++ s.log := by rw [log, List.append_assoc]; rfl
    have others : ∀ q ≠ p, SameByte s s' q y := fun q other => .of_update move pages other
    by_cases inside : call.cur done ≤ y ∧ y < call.cur done + call.chunk done
    · obtain ⟨carries, cell⟩ := carries_of_merge ordinary move position way accepted pages inside
      have origin : (call.cells done (y - call.cur done)).src = .user y := by
        rw [call.cells_src (by omega)]
        congr 1
        omega
      refine .merge position inside _ rfl (latest_of_landed _ events ?_) (by rw [same]) carries ?_ others
      · rw [List.findSome?_append, silent]
        simp [Event.lands, inside]
      · rw [cell, ← origin]
    · refine .quiet (latest_of_silent _ events ?_) (by rw [same]) fun q => ?_
      · rw [List.findSome?_append, silent]
        simp [Event.lands, inside, quiet]
      · by_cases merged : q = p
        · subst merged
          exact sameByte_of_merge ordinary move position way pages inside
        · exact others q merged
  | @fill p position free log same pages =>
    have current : p < s.created := sound.hand_lt_created (by simp [position, Stage1.pages])
    have base : (s'.pages p).base = (s.pages p).base := base_stable (sound.refines move) p current
    have others : ∀ q ≠ p, SameByte s s' q y := fun q other => .of_update move pages other
    have latest : s'.latest file y = s.latest file y := latest_of_silent [] log rfl
    -- A fill changes the byte only where the page has a hole.
    by_cases hole : s.InWindow p y ∧ ¬ (s.pages p).Covered (y - (s.pages p).base)
    · obtain ⟨carries, cell⟩ := byte_of_fill sound move current pages hole.1
      rw [if_neg hole.2] at cell
      exact .fill position hole.1 hole.2 latest (by rw [same]) carries cell others
    · refine .quiet latest (by rw [same]) fun q => ?_
      by_cases filled : q = p
      · subst filled
        refine ⟨fun carries => ?_, fun carries => ?_⟩
        · have window := carries.window
          rw [Engine.InWindow, base] at window
          exact ⟨current, window, by_contra fun open_ => hole ⟨window, open_⟩⟩
        · obtain ⟨carried, cell⟩ := byte_of_fill sound move current pages carries.window
          rw [if_pos carries.covered] at cell
          exact ⟨carried, cell⟩
      · exact others q filled
  | @direct t call result step position fits bytes log pages =>
    have cells := SameByte.of_pages (y := y) move pages
    have events : s'.log = [.returned t call (if result = .ok call.size then .ok else .eio),
        .wroteDirect call.offset result.landed call.buf] ++ s.log := log
    by_cases inside : call.offset ≤ y ∧ y < call.offset + result.landed
    · refine .direct step position inside (latest_of_landed _ events ?_) ?_ cells
      · simp [List.findSome?, Event.lands, inside]
      · rw [bytes, File.pwrite_byte, if_pos inside]
    · refine .quiet (latest_of_silent _ events ?_) ?_ cells
      · simp [List.findSome?, Event.lands, inside]
      · rw [bytes, File.pwrite_byte, if_neg inside]
  | @writeback batch st result after position fits outcome bytes log pages =>
    have cells := SameByte.of_pages (y := y) move pages
    have latest : s'.latest file y = s.latest file y := by
      refine latest_of_silent (_ ++ [_]) (by rw [log]; exact List.append_cons _ _ _) ?_
      rw [List.findSome?_eq_none_iff]
      intro event among
      rcases List.mem_append.mp among with wrote | issued
      · obtain ⟨q, -, rfl⟩ := List.mem_map.mp (List.mem_reverse.mp wrote)
        rfl
      · obtain rfl := List.mem_singleton.mp issued
        rfl
    -- The pages of a batch are consecutive, so one of them or none has the byte.
    have consecutive := ordinary.rows.batch
    rw [position] at consecutive
    rcases byte_of_pwritev consecutive fits y with same | ⟨q, row, window, landed⟩
    · exact .quiet latest (by rw [bytes]; exact same) cells
    · exact .writeback position row window latest (by rw [bytes]; exact landed) cells

end NoxDB

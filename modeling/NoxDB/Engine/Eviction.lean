import NoxDB.Engine.Contents
import NoxDB.Engine.Membership

/-! # No lost update across an eviction

A page that Stage-2 has tagged `NOX_TAG_FLUSHING` is frozen: it is out of the index,
nobody can reach it any more and no step changes it.  So the buffer of a writeback is
the page as its last merge left it, and no merge comes after.
-/

namespace NoxDB

open Function (update)
open Library.Runs

variable {n : Nat} {cfg : Config} {file : File} {scratch : Nat → UInt8} {s s' : Engine n}
  {label : Label n} {p : PageId}

/-! ## Pages that are not flushing -/

theorem ne_flushing_of_waiting (sound : Sound cfg s) (member : p ∈ s.custody.waiting) :
    (s.pages p).hdr.tag ≠ .flushing := by
  intro flushing
  rcases sound.owned.tagged p flushing with tagged | freed
  · exact List.disjoint_of_nodup_append sound.owned.nodup tagged member
  · have alive := (sound.owned.live p (Custody.mem_pipe_of_waiting member)).2
    simp [alive] at freed

theorem ne_flushing_of_linked (sound : Sound cfg s) {b : Nat} (member : p ∈ s.buckets b) :
    (s.pages p).hdr.tag ≠ .flushing := by
  intro flushing
  rcases sound.owned.tagged p flushing with tagged | freed
  · exact sound.owned.unlinked p (List.mem_append_left _ tagged) b member
  · have alive := (sound.owned.indexed b p member).1.2
    simp [alive] at freed

theorem lt_created_of_flushing (sound : Sound cfg s) (flushing : (s.pages p).hdr.tag = .flushing) :
    p < s.created := by
  rcases sound.owned.tagged p flushing with tagged | freed
  · exact (sound.owned.live p (Custody.mem_pipe_of_tagged tagged)).1
  · exact sound.owned.unborn p freed

theorem ne_flushing_of_held (sound : Sound cfg s) {t : Fin n} {call : Call} {done : Nat}
    {created : Bool} (position : s.fg t = .scrap call done (.held p created)) :
    (s.pages p).hdr.tag ≠ .flushing :=
  held_tag sound.owned (o := .fg t) (by rw [show s.custody.role (.fg t) = _ from role_at position]; rfl)

/-! ## A flushing page is frozen -/

theorem frozen_step (sound : Sound cfg s) (move : Move cfg s label s')
    (flushing : (s.pages p).hdr.tag = .flushing) : s'.pages p = s.pages p := by
  have other : ∀ {q : PageId} {page : ScrapPage Cell}, (s.pages q).hdr.tag ≠ .flushing →
      update s.pages q page p = s.pages p := by
    intro q page different
    have differs : p ≠ q := by rintro rfl; exact different flushing
    exact Function.update_of_ne differs _ _
  have hand : ∀ {q : PageId} {s1 : Stage1}, s.s1 = s1 → s1.pages = [q] →
      (s.pages q).hdr.tag ≠ .flushing := fun {q s1} position pages =>
    ne_flushing_of_waiting sound (by
      simp [Custody.waiting, Engine.custody, position, pages])
  cases move with
  | fg move =>
    cases move with
    | alloc =>
      have differs : p ≠ s.created := Nat.ne_of_lt (lt_created_of_flushing sound flushing)
      exact Function.update_of_ne differs _ _
    | decide position => exact other (ne_flushing_of_held sound position)
    | _ => rfl
  | stage1 move =>
    cases move with
    | fill position => exact other (hand position rfl)
    | drop position => exact other (hand position rfl)
    | _ => rfl
  | stage2 move =>
    cases move with
    | unlink position =>
      exact other (ne_flushing_of_waiting sound (by
        simp [Custody.waiting, Engine.custody, position, Stage2.kept]))
    | tag position =>
      exact other (ne_flushing_of_waiting sound (by
        simp [Custody.waiting, Engine.custody, position, Stage2.unlinked]))
    | _ => rfl
  | closer move =>
    cases move with
    | sweepLock position =>
      exact other (ne_flushing_of_linked sound (sound.walk.current _ _ _ position).1)
    | _ => rfl

/-- What nobody can reach: not in the index, its lock free, no thread about to take it. -/
structure Evicted (s : Engine n) (p : PageId) : Prop where
  unlinked : ∀ b, p ∉ s.buckets b
  unlocked : s.lock p = none
  ungrasped : ∀ t, ¬ Grasps s t p

theorem evicted_of_flushing (sound : Sound cfg s) (flushing : (s.pages p).hdr.tag = .flushing) :
    Evicted s p := by
  refine ⟨fun b member => ne_flushing_of_linked sound member flushing, ?_, ?_⟩
  · cases locked : s.lock p with
    | none => rfl
    | some o => exact absurd flushing (held_tag sound.owned ((sound.owned.locked p o).mp locked))
  · intro t grasps
    rcases sound.owned.tagged p flushing with tagged | freed
    · exact grasps_untagged sound grasps tagged
    · obtain ⟨call, done, pc, position, grasped⟩ := grasps
      have role : s.custody.role (.fg t) = pc.role (call.base done) := role_at position
      cases pc with
      | lockPage q =>
        obtain rfl : q = p := by simpa [ChunkPc.grasped] using grasped
        have rights := sound.owned.rights (.fg t)
        rw [role] at rights
        exact ne_flushing_of_linked sound rights.1 flushing
      | held q created | enqueue q e after | unlock q after =>
        obtain rfl : q = p := by simpa [ChunkPc.grasped] using grasped
        exact held_tag sound.owned (by rw [role]; rfl) flushing
      | _ => simp [ChunkPc.grasped] at grasped

theorem frozen_run (reached : Reachable cfg file scratch s)
    (flushing : (s.pages p).hdr.tag = .flushing)
    (run : Run (Engine.step cfg) (fun _ _ => True) s s') :
    s'.pages p = s.pages p ∧ Evicted s' p := by
  have both : Sound cfg s' ∧ s'.pages p = s.pages p := by
    apply run.invariant fun s' => Sound cfg s' ∧ s'.pages p = s.pages p
    · exact ⟨sound_of_run reached, rfl⟩
    · rintro middle last label ⟨sound, same⟩ - stepped
      have move := move_of_step stepped
      exact ⟨sound.move move, (frozen_step sound move (same ▸ flushing)).trans same⟩
  exact ⟨both.2, evicted_of_flushing both.1 (both.2 ▸ flushing)⟩

/-! ## The bytes of a merge stay in the page -/

/-- The merge wrote file offset `y`. -/
def Merge.Covers (m : Merge) (y : Nat) : Prop := m.offset ≤ y ∧ y < m.offset + m.len

/-- No later merge on the same page wrote file offset `y`. -/
def Merge.Survives (m : Merge) (later : List Merge) (y : Nat) : Prop :=
  m.Covers y ∧ ∀ m' ∈ later, m'.page = m.page → ¬ m'.Covers y

/-- The page shows file offset `y` as the merge wrote it. -/
def Shows (page : ScrapPage Cell) (m : Merge) (y : Nat) : Prop :=
  page.base ≤ y ∧ page.Covered (y - page.base) ∧ page.data (y - page.base) = m.cells (y - m.offset)

theorem Shows.same {page page' : ScrapPage Cell} {m : Merge} {y : Nat} (shows : Shows page m y)
    (same : page.SameContents page') : Shows page' m y := by
  rw [Shows, same.base, same.covered, same.data]
  exact shows

def MergesKept (s : Engine n) : Prop :=
  ∀ later m earlier, s.merges = later ++ m :: earlier →
    m.page < s.created ∧ ∀ y, m.Survives later y → Shows (s.pages m.page) m y

theorem MergesKept.step (sound : Sound cfg s) (aimed : Aimed s) (kept : MergesKept s)
    (move : Move cfg s label s') : MergesKept s' := by
  have older := created_mono move
  intro later m earlier merges
  cases content_step move with
  | kept pages same =>
    obtain ⟨old, shows⟩ := kept later m earlier (same ▸ merges)
    exact ⟨lt_of_lt_of_le old older, fun y survives => (shows y survives).same (pages _ old)⟩
  | @fill p position free pages same =>
    obtain ⟨old, shows⟩ := kept later m earlier (same ▸ merges)
    refine ⟨lt_of_lt_of_le old older, fun y survives => ?_⟩
    -- The fill writes only where the page had no user data, so not at `y`.
    obtain ⟨low, covered, data⟩ := shows y survives
    rw [pages]
    by_cases filled : m.page = p
    · have wellFormed := sound.ready.wellFormed p
      rw [← filled] at wellFormed ⊢
      rw [Function.update_self]
      refine ⟨low, (covered_filled _ _ _ _).mpr (covered.lt wellFormed), ?_⟩
      refine (data_filled _ _ wellFormed (covered.lt wellFormed)).trans ?_
      rw [if_pos covered]
      exact data
    · rw [Function.update_of_ne filled]
      exact shows y survives
  | @merge t call done p created decision position way accepted pages grown =>
    have more := sound.ready.progress t call done _ position
    have wellFormed := sound.ready.wellFormed p
    have base : (s.pages p).base = call.base done := aimed t call done _ p position rfl
    have place := call.base_add_intra done
    have current := target_lt_created sound.owned position rfl
    rw [grown] at merges
    rw [pages]
    rcases List.cons_eq_append_iff.mp merges with ⟨rfl, same⟩ | ⟨rest, rfl, tail⟩
    · -- The merge that was just made.
      obtain ⟨rfl, rfl⟩ := List.cons.inj same
      refine ⟨lt_of_lt_of_le current older, fun y survives => ?_⟩
      obtain ⟨low, high⟩ := survives.1
      dsimp only at low high ⊢
      rw [Function.update_self, Shows, way.base, base]
      have inside : call.intra done ≤ y - call.base done ∧
          y - call.base done < call.intra done + call.chunk done := by omega
      refine ⟨by omega, (way.covered wellFormed (Call.chunk_pos more) _).mpr
        (.inr ⟨accepted, inside⟩), ?_⟩
      rw [way.data, if_pos ⟨accepted, inside⟩]
      congr 1
      dsimp only
      omega
    · -- An earlier merge: the new one did not write `y` on the same page.
      obtain ⟨old, shows⟩ := kept rest m earlier tail
      refine ⟨lt_of_lt_of_le old older, fun y survives => ?_⟩
      have before := shows y ⟨survives.1, fun m' among => survives.2 m' (List.mem_cons_of_mem _ among)⟩
      by_cases touched : m.page = p
      · obtain ⟨low, covered, data⟩ := before
        have missed := survives.2 _ List.mem_cons_self touched.symm
        rw [touched] at low covered data ⊢
        rw [Function.update_self, Shows, way.base]
        refine ⟨low, (way.covered wellFormed (Call.chunk_pos more) _).mpr (.inl covered), ?_⟩
        rw [way.data, if_neg, data]
        rintro ⟨-, inside⟩
        apply missed
        simp only [Merge.Covers]
        rw [base] at inside low
        omega
      · rw [Function.update_of_ne touched]
        exact before

/-! ## What a writeback passes to the device -/

/-- `newer` is no merge into a page that `older` already passed to the device. -/
def NoMergeAfter (newer older : Event n) : Prop :=
  ∀ offset pages zones m, older = .issued offset pages zones → newer.merge? = some m →
    m.page ∉ pages

/-- What the history says about buffers: they are the zones of frozen pages, and no merge
into one of these pages comes later. -/
structure Handed (s : Engine n) : Prop where
  frozen : ∀ offset pages zones, .issued offset pages zones ∈ s.log →
    zones = pages.map (fun p => (s.pages p).data) ∧ ∀ p ∈ pages, (s.pages p).hdr.tag = .flushing
  order : s.log.Pairwise NoMergeAfter

namespace Handed

theorem extend (handed : Handed s) (sound : Sound cfg s) (move : Move cfg s label s')
    (events : List (Event n)) (log : s'.log = events ++ s.log)
    (inner : events.Pairwise NoMergeAfter)
    (issues : ∀ offset pages zones, .issued offset pages zones ∈ events →
      zones = pages.map (fun p => (s.pages p).data) ∧ ∀ p ∈ pages, (s.pages p).hdr.tag = .flushing)
    (merges : ∀ event ∈ events, ∀ m, event.merge? = some m →
      (s.pages m.page).hdr.tag ≠ .flushing) : Handed s' := by
  refine ⟨fun offset pages zones issued => ?_, ?_⟩
  · have before : zones = pages.map (fun p => (s.pages p).data) ∧
        ∀ p ∈ pages, (s.pages p).hdr.tag = .flushing := by
      rw [log] at issued
      exact (List.mem_append.mp issued).elim (issues offset pages zones)
        (handed.frozen offset pages zones)
    have same : ∀ p ∈ pages, s'.pages p = s.pages p := fun p among =>
      frozen_step sound move (before.2 p among)
    refine ⟨before.1.trans (List.map_congr_left fun p among => by rw [same p among]), ?_⟩
    exact fun p among => (congrArg (fun page => page.hdr.tag) (same p among)).trans
      (before.2 p among)
  · rw [log]
    refine List.pairwise_append.mpr ⟨inner, handed.order, ?_⟩
    rintro newer new older old offset pages zones m rfl merged among
    exact merges newer new m merged ((handed.frozen offset pages zones old).2 _ among)

/-- A step that records neither a merge nor a writeback. -/
theorem quiet (handed : Handed s) (sound : Sound cfg s) (move : Move cfg s label s')
    (events : List (Event n)) (log : s'.log = events ++ s.log)
    (plain : ∀ event ∈ events, event.merge? = none ∧
      ∀ offset pages zones, event ≠ .issued offset pages zones) : Handed s' := by
  refine handed.extend sound move events log ?_ ?_ ?_
  · refine List.pairwise_of_forall_mem_list fun newer new older _ => ?_
    rintro offset pages zones m - merged
    simp [(plain newer new).1] at merged
  · exact fun offset pages zones issued => absurd rfl ((plain _ issued).2 offset pages zones)
  · exact fun event new m merged => by simp [(plain event new).1] at merged

theorem step (handed : Handed s) (sound : Sound cfg s) (move : Move cfg s label s') : Handed s' := by
  have unissued : ∀ event : Event n, event.plain = true → ∀ offset pages zones,
      event ≠ .issued offset pages zones := by
    rintro event plain offset pages zones rfl
    simp [Event.plain] at plain
  cases effect move with
  | quiet events log plain =>
    exact handed.quiet sound move events log fun event member =>
      ⟨Event.merge?_of_plain (plain event member), unissued event (plain event member)⟩
  | fill _ _ log => exact handed.quiet sound move [] log (by simp)
  | direct _ _ _ _ log => exact handed.quiet sound move [_, _] log (by simp [Event.merge?])
  | @merge t call done p created decision position way accepted after before log plain =>
    have all : ∀ event ∈ after ++ [.merged p (call.cur done) (call.chunk done) (call.cells done)] ++
        before, (∀ m, event.merge? = some m → m.page = p) ∧
          ∀ offset pages zones, event ≠ .issued offset pages zones := by
      intro event member
      simp only [List.mem_append, List.mem_singleton] at member
      rcases member with (new | rfl) | old
      · have isPlain := plain event (List.mem_append_left _ new)
        exact ⟨by simp [Event.merge?_of_plain isPlain], unissued event isPlain⟩
      · exact ⟨by rintro m ⟨⟩; rfl, by simp⟩
      · have isPlain := plain event (List.mem_append_right _ old)
        exact ⟨by simp [Event.merge?_of_plain isPlain], unissued event isPlain⟩
    refine handed.extend sound move _ (by rw [log, List.append_cons, ← List.append_assoc]) ?_ ?_ ?_
    · refine List.pairwise_of_forall_mem_list fun newer _ older old => ?_
      rintro offset pages zones m rfl
      exact absurd rfl ((all _ old).2 offset pages zones)
    · exact fun offset pages zones issued => absurd rfl ((all _ issued).2 offset pages zones)
    · intro event new m merged
      rw [(all event new).1 m merged]
      exact ne_flushing_of_held sound position
  | @writeback batch st result after position _ _ _ log =>
    have tagged : ∀ p ∈ batch, (s.pages p).hdr.tag = .flushing := fun p among =>
      sound.owned.flushing p (by simpa [Engine.custody, position, Stage2.tagged] using among)
    have all : ∀ event ∈ ((completedPages batch st after).map Event.wrote).reverse ++
        [.issued ((s.pages (batch.headD 0)).base + st.i * zoneSize) (batch.drop st.i)
          ((batch.drop st.i).map fun p => (s.pages p).data)],
        (event : Event n).merge? = none ∧ ∀ offset pages zones,
          event = .issued offset pages zones → pages = batch.drop st.i ∧
            zones = pages.map fun p => (s.pages p).data := by
      intro event member
      rcases List.mem_append.mp member with wrote | issued
      · obtain ⟨q, -, rfl⟩ := List.mem_map.mp (List.mem_reverse.mp wrote)
        exact ⟨rfl, by simp⟩
      · obtain rfl := List.mem_singleton.mp issued
        refine ⟨rfl, ?_⟩
        rintro offset pages zones ⟨⟩
        exact ⟨rfl, rfl⟩
    refine handed.extend sound move _ (by rw [log, List.append_cons]) ?_ ?_ ?_
    · refine List.pairwise_of_forall_mem_list fun newer new older _ => ?_
      rintro offset pages zones m - merged
      simp [(all newer new).1] at merged
    · intro offset pages zones issued
      obtain ⟨rfl, zones⟩ := (all _ issued).2 offset pages zones rfl
      exact ⟨zones, fun p among => tagged p (List.mem_of_mem_drop among)⟩
    · exact fun event new m merged => by simp [(all event new).1] at merged

end Handed

theorem handed_of_run (reached : Reachable cfg file scratch s) : Handed s ∧ MergesKept s := by
  have all : (Sound cfg s ∧ Aimed s) ∧ Handed s ∧ MergesKept s := by
    apply reached.invariant fun s => (Sound cfg s ∧ Aimed s) ∧ Handed s ∧ MergesKept s
    · exact ⟨⟨.init cfg file scratch, by simp [Aimed, Engine.init]⟩,
        ⟨by simp [Engine.init], .nil⟩, by simp [MergesKept, Engine.merges, Engine.init]⟩
    · rintro middle last label ⟨⟨sound, aimed⟩, handed, kept⟩ - stepped
      have move := move_of_step stepped
      exact ⟨⟨sound.move move, sound.aimed_step aimed move⟩, handed.step sound move,
        kept.step sound aimed move⟩
  exact all.2

/-- A flushing page is evicted and stays so, unchanged, in every continuation of the run; and
whenever the history passes a page to the device, no merge into that page comes after, and
every merge into it is in its buffer, up to the bytes that a later merge into the same page
wrote again. -/
theorem no_lost_update (reached : Reachable cfg file scratch s) :
    (∀ p, (s.pages p).hdr.tag = .flushing → Evicted s p ∧
      ∀ s', Run (Engine.step cfg) (fun _ _ => True) s s' →
        s'.pages p = s.pages p ∧ Evicted s' p) ∧
    ∀ newer offset pages zones older, s.log = newer ++ .issued offset pages zones :: older →
      ∀ (i : Nat) p, pages[i]? = some p → ∃ zone, zones[i]? = some zone ∧
        (∀ event ∈ newer, ∀ m, event.merge? = some m → m.page ≠ p) ∧
        ∀ later m earlier, s.merges = later ++ m :: earlier → m.page = p →
          ∀ y, m.Survives later y →
            (s.pages p).base ≤ y ∧ y < (s.pages p).base + zoneSize ∧
              zone (y - (s.pages p).base) = m.cells (y - m.offset) := by
  have sound := sound_of_run reached
  obtain ⟨handed, kept⟩ := handed_of_run reached
  refine ⟨fun p flushing => ⟨evicted_of_flushing sound flushing,
    fun s' run => frozen_run reached flushing run⟩, ?_⟩
  intro newer offset pages zones older log i p at_
  obtain ⟨buffers, -⟩ := handed.frozen offset pages zones (by rw [log]; simp)
  refine ⟨(s.pages p).data, by rw [buffers, List.getElem?_map, at_]; rfl, ?_, ?_⟩
  · rintro event new m merged rfl
    have order := handed.order
    rw [log] at order
    exact (List.pairwise_append.mp order).2.2 event new _ List.mem_cons_self offset pages zones m
      rfl merged (List.mem_of_getElem? at_)
  · rintro later m earlier merges rfl y survives
    obtain ⟨low, covered, data⟩ := (kept later m earlier merges).2 y survives
    have inside := covered.lt (sound.ready.wellFormed m.page)
    exact ⟨low, by omega, data⟩

/-- In the small run the page is evicted once it is tagged, and its one merge came before its
writeback. -/
theorem no_lost_update_of_written :
    ∃ s : Engine 1, Reachable .standard emptyFile (fun _ => 0) s ∧
      (s.pages 0).hdr.tag = .flushing ∧ Evicted s 0 ∧ s.merges.length = 1 ∧
      ∃ newer offset pages zones older, s.log = newer ++ .issued offset pages zones :: older ∧
        pages[0]? = some 0 ∧ ∀ event ∈ newer, ∀ m, event.merge? = some m → m.page ≠ 0 := by
  obtain ⟨s, reached, flushing, single, issued⟩ :=
    exists_reachable .standard emptyFile (fun _ => 0) (tinyWrite ++ tinyFill ++ tinyWriteback)
      (fun s => (s.pages 0).hdr.tag = .flushing ∧ s.merges.length = 1 ∧
        (s.log.any fun | .issued _ pages _ => pages[0]? = some 0 | _ => false) = true)
      (by decide +kernel)
  obtain ⟨evicted, written⟩ := no_lost_update reached
  obtain ⟨event, member, isIssued⟩ := List.any_eq_true.mp issued
  obtain ⟨newer, older, log⟩ := List.append_of_mem member
  cases event with
  | issued offset pages zones =>
    have first : pages[0]? = some 0 := by simpa using isIssued
    obtain ⟨-, -, before, -⟩ := written newer offset pages zones older log 0 0 first
    exact ⟨s, reached, flushing, (evicted 0 flushing).1, single, newer, offset, pages, zones, older,
      log, first, before⟩
  | _ => simp at isIssued

end NoxDB

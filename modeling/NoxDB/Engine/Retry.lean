import NoxDB.Engine.Concurrent

/-! # The retry loop of `scrap_write_chunk`

The loop has no counter.  It goes round because of a page that the writer found sealed or sealed
itself, and it calls `page_index_detach_if` on that page first.  A sealed page never gets back
into the index, so the next lookup finds another one; and a page is sealed once, because Stage-1
takes the tag away only from a page that it has filled, and a full page accepts every merge.

For each thread the run records the pages because of which the call of `scrap_write_chunk` it is
in went round.  No step reads the record.
-/

namespace NoxDB

open Function (update)
open Library.Runs

variable {n : Nat}

/-- What the next own step of a thread does to the pages its loop went round because of:
`continue` adds the page, `return 0` ends the loop. -/
def Fg.goRound (rounds : List PageId) : Fg → List PageId
  | .scrap _ _ (.detach p) => p :: rounds
  | .scrap _ _ (.unlock _ .ret) => []
  | _ => rounds

/-- The pages because of which each thread's call of `scrap_write_chunk` went round, newest
first, after a step.  A failed allocation ends the loop as well. -/
def Engine.goRound (s : Engine n) (label : Label n) (rounds : Fin n → List PageId) :
    Fin n → List PageId :=
  match label with
  | .fg t => update rounds t ((s.fg t).goRound (rounds t))
  | .oom t => update rounds t []
  | _ => rounds

/-- `s` is reachable by a run that recorded `rounds`. -/
abbrev Looped (cfg : Config) (file : File) (scratch : Nat → UInt8) (s : Engine n)
    (rounds : Fin n → List PageId) : Prop :=
  Run (recording (Engine.step cfg) Engine.goRound) (fun _ _ => True)
    (Engine.init n cfg file scratch, fun _ => []) (s, rounds)

variable {cfg : Config} {file : File} {scratch : Nat → UInt8} {s s' : Engine n} {label : Label n}

/-! ## A page is sealed once -/

theorem seals_mono (move : Move cfg s label s') {p : PageId} (member : p ∈ s.seals) :
    p ∈ s'.seals := by
  rcases sealing_step move with ⟨seals, -⟩ | ⟨t, call, done, q, created, -, -, -, seals, -⟩
  · exact seals ▸ member
  · exact seals ▸ List.mem_cons_of_mem q member

/-- A full page stays full. -/
theorem full_stays (sound : Sound cfg s) (move : Move cfg s label s') {p : PageId}
    (old : p < s.created) (full : scrapPageIsFull (s.pages p) = true) :
    scrapPageIsFull (s'.pages p) = true := by
  have before := sound.ready.wellFormed p
  have after := (sound.move move).ready.wellFormed p
  cases content_step move with
  | kept pages =>
    rw [scrapPageIsFull_iff_entries after, (pages p old).entries]
    exact (scrapPageIsFull_iff_entries before).mp full
  | @merge t call done q created decision position way accepted pages =>
    rw [pages]
    by_cases same : p = q
    · subst same
      rw [Function.update_self]
      exact way.isFull before (Call.chunk_pos (sound.ready.progress t call done _ position))
        (call.intra_add_chunk_le done) full
    · rwa [Function.update_of_ne same]
  | @fill q position free pages =>
    rw [pages]
    by_cases same : p = q
    · subst same
      rw [Function.update_self]
      change scrapPageIsFull (scrapPageApplyHoles cfg.maxEntries (s.pages p) s.scratch) = true
      exact scrapPageApplyHoles_full s.scratch
    · rwa [Function.update_of_ne same]

/-- The tag of a sealed page changes only once the page is full. -/
theorem sealed_until_full (sound : Sound cfg s) (move : Move cfg s label s') {p : PageId}
    (old : p < s.created) (sealed : (s.pages p).hdr.tag = .sealed) :
    (s'.pages p).hdr.tag = .sealed ∨ scrapPageIsFull (s'.pages p) = true := by
  have filled : p ∈ s'.outgoing → scrapPageIsFull (s'.pages p) = true :=
    (sound.move move).ready.filled p
  cases touch move p with
  | same tag | drop _ _ _ tag => exact .inl (tag.trans sealed)
  | born new => exact absurd new (Nat.ne_of_lt old)
  | decide position way page =>
    cases way with
    | seen => exact .inl (by rw [page]; exact sealed)
    | overflow tag | overflowPush tag | full tag | fullPush tag | partialPush tag | stay tag =>
      exact absurd sealed tag
  | fill _ _ _ entering => exact .inr (filled (List.mem_append_right _ entering))
  | tag _ _ _ tagged =>
    exact .inr (filled (by simp [Engine.outgoing, Stage2.pages, tagged]))
  | sweep free position page =>
    rw [page, Engine.enqueueOne]
    by_cases full : scrapPageIsFull (s.pages p) = true
    · right
      rw [if_pos full, enqueueFull]
      dsimp only
      split <;> exact full
    · left
      rw [if_neg full, enqueuePartial]
      split <;> exact sealed

/-- Every sealed page is in the history once; when its tag is taken away it is full. -/
structure SealedOnce (s : Engine n) : Prop where
  nodup : s.seals.Nodup
  recorded : ∀ p, (s.pages p).hdr.tag = .sealed → p ∈ s.seals
  kept : ∀ p ∈ s.seals,
    p < s.created ∧ ((s.pages p).hdr.tag = .sealed ∨ scrapPageIsFull (s.pages p) = true)
  givenUp : ∀ t p, (s.fg t).retrying = some p ∨ (s.fg t).detaching = some p → p ∈ s.seals

namespace SealedOnce

theorem init (cfg : Config) (file : File) (scratch : Nat → UInt8) :
    SealedOnce (Engine.init n cfg file scratch) := by
  constructor <;> simp [Engine.init, Engine.seals, scrapPageAlloc, Fg.retrying, Fg.detaching]

variable (once : SealedOnce s) (sound : Sound cfg s) (move : Move cfg s label s')
include once sound

/-- A page whose merge overflows was not sealed before: it would be full. -/
theorem not_sealed_before {t : Fin n} {call : Call} {done : Nat} {p : PageId} {created : Bool}
    (position : s.fg t = .scrap call done (.held p created))
    (open_ : (s.pages p).hdr.tag ≠ .sealed)
    (rejected : scrapPageMerge cfg.maxEntries (s.pages p) (call.cells done) (call.intra done)
      (call.chunk done) = (.overflow, s.pages p)) : p ∉ s.seals := by
  intro member
  have full := (once.kept p member).2.resolve_left open_
  have positive := Call.chunk_pos (sound.ready.progress t call done _ position)
  have accepts : (scrapPageMerge cfg.maxEntries (s.pages p) (call.cells done) (call.intra done)
      (call.chunk done)).1 = .ok :=
    scrapPageMerge_of_full cfg.maxEntries_pos (sound.ready.wellFormed p) full positive
      (call.intra_add_chunk_le done)
  simp [rejected] at accepts

include move

theorem kept_step {p : PageId} (member : p ∈ s.seals) :
    p < s'.created ∧ ((s'.pages p).hdr.tag = .sealed ∨ scrapPageIsFull (s'.pages p) = true) := by
  obtain ⟨old, sealed | full⟩ := once.kept p member
  · exact ⟨lt_of_lt_of_le old (created_mono move), sealed_until_full sound move old sealed⟩
  · exact ⟨lt_of_lt_of_le old (created_mono move), .inr (full_stays sound move old full)⟩

theorem step : SealedOnce s' := by
  -- Who gives a page up did so before or has just seen it sealed.
  have givenUp : (∀ p, (s'.pages p).hdr.tag = .sealed → p ∈ s'.seals) →
      ∀ t p, (s'.fg t).retrying = some p ∨ (s'.fg t).detaching = some p → p ∈ s'.seals := by
    intro recorded t p holds
    rcases holds with retrying | detaching
    · rcases retrying_cases move retrying with before | sealed
      · exact seals_mono move (once.givenUp t p (.inl before))
      · exact recorded p sealed
    · exact seals_mono move (once.givenUp t p (detaching_cases move detaching).symm)
  rcases sealing_step move with
    ⟨seals, tags⟩ | ⟨t, call, done, p, created, position, open_, rejected, seals, others, tag, -⟩
  · have recorded : ∀ p, (s'.pages p).hdr.tag = .sealed → p ∈ s'.seals := fun p sealed =>
      seals ▸ once.recorded p (tags p sealed)
    exact
      { nodup := seals ▸ once.nodup
        recorded
        kept := fun p member => once.kept_step sound move (seals ▸ member)
        givenUp := givenUp recorded }
  · have new : p ∈ s'.seals := seals ▸ List.mem_cons_self
    have current := target_lt_created sound.owned position rfl
    have recorded : ∀ q, (s'.pages q).hdr.tag = .sealed → q ∈ s'.seals := by
      intro q sealed
      by_cases same : q = p
      · exact same ▸ new
      · rw [others q same] at sealed
        exact seals_mono move (once.recorded q sealed)
    refine ⟨?_, recorded, fun q member => ?_, givenUp recorded⟩
    · rw [seals]
      exact List.nodup_cons.mpr ⟨once.not_sealed_before sound position open_ rejected, once.nodup⟩
    · rw [seals] at member
      rcases List.mem_cons.mp member with rfl | before
      · exact ⟨lt_of_lt_of_le current (created_mono move), .inl tag⟩
      · exact once.kept_step sound move before

end SealedOnce

/-! ## The loop of one call -/

theorem goRound_frame {t : Fin n} (other : label.thread ≠ some t) (rounds : Fin n → List PageId) :
    s.goRound label rounds t = rounds t := by
  have apart : ∀ {u : Fin n} {f : List PageId}, label.thread = some u → update rounds u f t = rounds t := by
    intro u f moves
    have differs : t ≠ u := by
      rintro rfl
      exact other moves
    exact Function.update_of_ne differs _ _
  cases label with
  | fg u | oom u => exact apart rfl
  | _ => rfl

theorem goRound_fg (t : Fin n) (rounds : Fin n → List PageId) :
    s.goRound (.fg t) rounds t = (s.fg t).goRound (rounds t) := Function.update_self _ _ _

theorem goRound_oom (t : Fin n) (rounds : Fin n → List PageId) :
    s.goRound (.oom t) rounds t = [] := Function.update_self _ _ _

/-- A thread with no page to detach begins no pass. -/
theorem goRound_nil {t : Fin n} {rounds : Fin n → List PageId} (empty : rounds t = [])
    (stays : (s.fg t).goRound [] = []) : s.goRound label rounds t = [] := by
  by_cases mine : label.thread = some t
  · cases label with
    | fg u =>
      obtain rfl : u = t := Option.some.inj mine
      rw [goRound_fg, empty, stays]
    | oom u =>
      obtain rfl : u = t := Option.some.inj mine
      exact goRound_oom u rounds
    | _ => exact empty
  · rw [goRound_frame mine, empty]

/-- A step of a thread inside `scrap_write_chunk` ends its loop, takes the loop round because of
the page it detaches, or leaves it in the same pass, with the page it had or one that is in the
index. -/
theorem round_cases (move : Move cfg s label s') (rounds : Fin n → List PageId) {t : Fin n}
    {call : Call} {done : Nat} {pc : ChunkPc} (position : s.fg t = .scrap call done pc) :
    s.goRound label rounds t = [] ∨
    (∃ p, pc = .detach p ∧ s'.fg t = .scrap call done .gate ∧
      s.goRound label rounds t = p :: rounds t) ∨
    s.goRound label rounds t = rounds t ∧ ∃ pc', s'.fg t = .scrap call done pc' ∧
      ∀ p, pc'.target = some p → pc.target = some p ∨ ∃ b, p ∈ s'.buckets b := by
  by_cases mine : label.thread = some t
  · cases own_move move mine with
    | oomPage =>
      obtain rfl := Option.some.inj mine
      exact .inl (goRound_oom _ rounds)
    | oomDirect position' | callZero position' | callDirect position' | callScrap position'
    | pwrite position' =>
      obtain rfl := Option.some.inj mine
      simp [position'] at position
    | unlockMore position' | unlockDone position' =>
      obtain rfl := Option.some.inj mine
      left
      rw [goRound_fg, position']
      rfl
    -- The only step that takes the loop round.
    | @detach u call' done' p position' =>
      obtain rfl : u = t := Option.some.inj mine
      obtain ⟨rfl, rfl, rfl⟩ := Fg.scrap.inj (position'.symm.trans position)
      refine .inr (.inl ⟨p, rfl, Function.update_self _ _ _, ?_⟩)
      rw [goRound_fg, position']
      rfl
    -- A page that was found is in the index, and so is one that was just created.
    | @lookupFound u call' done' p position' free found =>
      obtain rfl : u = t := Option.some.inj mine
      obtain ⟨rfl, rfl, rfl⟩ := Fg.scrap.inj (position'.symm.trans position)
      refine .inr (.inr ⟨by rw [goRound_fg, position']; rfl, _, Function.update_self _ _ _, ?_⟩)
      rintro q ⟨⟩
      exact .inr ⟨_, List.mem_of_find?_eq_some found⟩
    | @alloc u call' done' address zone position' =>
      obtain rfl : u = t := Option.some.inj mine
      obtain ⟨rfl, rfl, rfl⟩ := Fg.scrap.inj (position'.symm.trans position)
      refine .inr (.inr ⟨rfl, _, Function.update_self _ _ _, ?_⟩)
      rintro q ⟨⟩
      exact .inr ⟨piHash (call'.base done'), by simp⟩
    | gatePass position' | gatePark position' | parkedPass position' | lockPage position'
    | partialInc position' | partialPush position' | fullInc position' | fullEnter position'
    | fullPush position' | unlockRetry position' =>
      obtain rfl := Option.some.inj mine
      obtain ⟨rfl, rfl, rfl⟩ := Fg.scrap.inj (position'.symm.trans position)
      refine .inr (.inr ⟨by rw [goRound_fg, position']; rfl, _, Function.update_self _ _ _, ?_⟩)
      exact fun p target => .inl target
    | @decide u call' done' p created position' decision =>
      obtain rfl : u = t := Option.some.inj mine
      obtain ⟨rfl, rfl, rfl⟩ := Fg.scrap.inj (position'.symm.trans position)
      refine .inr (.inr ⟨by rw [goRound_fg, position']; rfl, _, Function.update_self _ _ _, ?_⟩)
      intro q target
      rw [Decision.next] at target
      cases pushes : decision.enqueue <;> rw [pushes] at target <;> exact .inl target
  · refine .inr (.inr ⟨goRound_frame mine rounds, pc, ?_, fun p target => .inl target⟩)
    rw [fg_frame move mine, position]

/-- `page_index_detach_if` leaves the page out of the index, whoever unlinked it. -/
theorem unlinked_of_detach (ordinary : Ordinary cfg s) (move : Move cfg s label s') {t : Fin n}
    {call : Call} {done : Nat} {p : PageId} (position : s.fg t = .scrap call done (.detach p))
    (after : s'.fg t = .scrap call done .gate) (b : Nat) : p ∉ s'.buckets b := by
  intro linked
  have old := target_lt_created ordinary.sound.owned position rfl
  rcases linked_before move linked with before | ⟨new, -⟩
  · have still := gives_up_onward ordinary move before linked (t := t) (.inr (by rw [position]; rfl))
    simp [after, Fg.retrying, Fg.detaching] at still
  · exact absurd new (Nat.ne_of_lt old)

/-- The pages because of which a thread's loop went round are different pages of its base, sealed
and out of the index, and it works on another one. -/
structure Round (s : Engine n) (t : Fin n) (rounds : List PageId) : Prop where
  nodup : rounds.Nodup
  tried : ∀ p ∈ rounds, p ∈ s.seals ∧ (∀ b, p ∉ s.buckets b) ∧
    ∃ call done pc, s.fg t = .scrap call done pc ∧ (s.pages p).base = call.base done
  other : ∀ call done pc p, s.fg t = .scrap call done pc → pc.target = some p → p ∉ rounds

namespace Round

theorem nil (s : Engine n) (t : Fin n) : Round s t [] := by
  constructor <;> simp

/-- Outside of `scrap_write_chunk` there is no loop. -/
theorem eq_nil {t : Fin n} {rounds : List PageId} (round : Round s t rounds)
    (outside : ∀ call done pc, s.fg t ≠ .scrap call done pc) : rounds = [] := by
  refine List.eq_nil_iff_forall_not_mem.mpr fun p member => ?_
  obtain ⟨-, -, call, done, pc, position, -⟩ := round.tried p member
  exact outside call done pc position

variable {t : Fin n} {rounds : Fin n → List PageId} (round : Round s t (rounds t))
  (ordinary : Ordinary cfg s) (once : SealedOnce s) (move : Move cfg s label s')
include round ordinary once move

/-- What a pass of the loop gave up stays out of the index. -/
theorem tried_step {call : Call} {done : Nat} {pc pc' : ChunkPc}
    (position : s.fg t = .scrap call done pc) (after : s'.fg t = .scrap call done pc')
    {p : PageId} (member : p ∈ rounds t) :
    p ∈ s'.seals ∧ (∀ b, p ∉ s'.buckets b) ∧
      ∃ call done pc, s'.fg t = .scrap call done pc ∧ (s'.pages p).base = call.base done := by
  obtain ⟨sealed, unlinked, call', done', pc'', position', base⟩ := round.tried p member
  obtain ⟨rfl, rfl, -⟩ := Fg.scrap.inj (position'.symm.trans position)
  have old := (once.kept p sealed).1
  refine ⟨seals_mono move sealed, fun b linked => ?_, call', done', pc', after, ?_⟩
  · rcases linked_before move linked with before | ⟨new, -⟩
    · exact unlinked b before
    · exact absurd new (Nat.ne_of_lt old)
  · rw [base_stable (ordinary.sound.refines move) p old, base]

theorem step : Round s' t (s.goRound label rounds t) := by
  cases position : s.fg t with
  | idle | direct =>
    have empty : rounds t = [] := round.eq_nil (by simp [position])
    rw [goRound_nil empty (by rw [position]; rfl)]
    exact .nil s' t
  | scrap call done pc =>
    rcases round_cases move rounds position with
      ends | ⟨p, rfl, after, again⟩ | ⟨same, pc', after, target⟩
    · rw [ends]
      exact .nil s' t
    · have old := target_lt_created ordinary.sound.owned position rfl
      have base : (s.pages p).base = call.base done := ordinary.aimed t call done _ p position rfl
      rw [again]
      refine ⟨?_, fun q member => ?_, ?_⟩
      · exact List.nodup_cons.mpr ⟨round.other call done _ p position rfl, round.nodup⟩
      · rcases List.mem_cons.mp member with rfl | before
        · refine ⟨seals_mono move (once.givenUp t q (.inr (by rw [position]; rfl))),
            unlinked_of_detach ordinary move position after, call, done, _, after, ?_⟩
          rw [base_stable (ordinary.sound.refines move) q old, base]
        · exact round.tried_step ordinary once move position after before
      · intro call' done' pc' q at_ target
        obtain ⟨-, -, rfl⟩ := Fg.scrap.inj (after.symm.trans at_)
        simp [ChunkPc.target] at target
    · rw [same]
      refine ⟨round.nodup, fun q member => round.tried_step ordinary once move position after member, ?_⟩
      intro call' done' pc'' q at_ aims member
      obtain ⟨rfl, rfl, rfl⟩ := Fg.scrap.inj (after.symm.trans at_)
      rcases target q aims with before | ⟨b, linked⟩
      · exact round.other call done pc q position before member
      · exact (round.tried_step ordinary once move position after member).2.1 b linked

end Round

/-! ## One foreground thread -/

/-- Where a thread without rivals can be when its loop has gone round: on its way to a lookup, or
with a page that it created and that takes its chunk. -/
def ChunkPc.again : ChunkPc → Bool
  | .gate | .parked | .lookup | .held _ true | .enqueue _ _ .ret | .unlock _ .ret => true
  | _ => false

/-- A thread without rivals: no other page of its base is linked than the one it works on, and
none at all once its loop has gone round and until it has created one. -/
structure Lone (s : Engine n) (t : Fin n) (rounds : List PageId) : Prop where
  only : ∀ call done pc p, s.fg t = .scrap call done pc → pc.target = some p →
    ∀ b, ∀ q ∈ s.buckets b, (s.pages q).base = call.base done → q = p
  absent : ∀ call done pc, s.fg t = .scrap call done pc → rounds ≠ [] → pc.target = none →
    ∀ b, ∀ q ∈ s.buckets b, (s.pages q).base ≠ call.base done
  again : ∀ call done pc, s.fg t = .scrap call done pc → rounds ≠ [] → pc.again = true
  short : rounds.length ≤ 1

theorem created_frame (move : Move cfg s label s') (background : label.thread = none) :
    s'.created = s.created := by
  cases move with
  | fg move => cases move <;> simp [Label.thread] at background
  | stage1 move => cases move <;> rfl
  | stage2 move => cases move <;> rfl
  | closer move => cases move <;> rfl

/-- A step that creates no page links none. -/
theorem linked_onward (sound : Sound cfg s) (move : Move cfg s label s')
    (created : s'.created = s.created) {b : Nat} {q : PageId} (linked : q ∈ s'.buckets b) :
    q ∈ s.buckets b ∧ (s'.pages q).base = (s.pages q).base := by
  have current : q < s'.created := ((sound.move move).owned.indexed b q linked).1.1
  rw [created] at current
  rcases linked_before move linked with before | ⟨new, -⟩
  · exact ⟨before, base_stable (sound.refines move) q current⟩
  · exact absurd new (Nat.ne_of_lt current)

namespace Lone

/-- A loop begins without a page. -/
theorem start {t : Fin n} (free : ∀ call done pc, s.fg t = .scrap call done pc → pc.target = none) :
    Lone s t [] := by
  refine ⟨fun call done pc p position target => ?_, by simp, by simp, by simp⟩
  rw [free call done pc position] at target
  simp at target

section Pass

variable {t : Fin n} {rounds : List PageId} (lone : Lone s t rounds) (sound : Sound cfg s)
include lone sound

/-- The critical section of the second pass merges: its page is new and empty. -/
theorem merges {call : Call} {done : Nat} {p : PageId} {created : Bool}
    (position : s.fg t = .scrap call done (.held p created)) (round : rounds ≠ []) :
    created = true ∧ (s.pages p).hdr.tag = .opened ∧
      (scrapPageMerge cfg.maxEntries (s.pages p) (call.cells done) (call.intra done)
        (call.chunk done)).1 = .ok := by
  have again := lone.again call done _ position round
  cases created with
  | false => simp [ChunkPc.again] at again
  | true =>
    have rights := sound.owned.rights (.fg t)
    rw [show s.custody.role (.fg t) = .holds p true from role_at position] at rights
    obtain ⟨-, empty, opened, -⟩ := rights.2.2 rfl
    exact ⟨rfl, opened, scrapPageMerge_of_empty cfg.maxEntries_pos empty⟩

/-- A lookup that finds a page is in the first pass. -/
theorem found {call : Call} {done : Nat} {p : PageId} (position : s.fg t = .scrap call done .lookup)
    (find : s.find (call.base done) = some p) (buckets : s'.buckets = s.buckets)
    (pages : s'.pages = s.pages) (after : s'.fg t = .scrap call done (.lockPage p)) :
    Lone s' t rounds := by
  have linked := List.mem_of_find?_eq_some find
  have base : (s.pages p).base = call.base done := by simpa using List.find?_some find
  have first : rounds = [] := by
    by_contra round
    exact lone.absent call done _ position round rfl _ p linked base
  subst first
  refine ⟨fun call' done' pc q at_ aims b r among same => ?_, by simp, by simp, by simp⟩
  obtain ⟨rfl, rfl, rfl⟩ := Fg.scrap.inj (after.symm.trans at_)
  obtain rfl := Option.some.inj aims
  rw [buckets] at among
  rw [pages] at same
  obtain rfl : piHash (s.pages r).base = b := (sound.owned.indexed b r among).2
  rw [same] at among
  exact sound.owned.single _ r among p linked (same.trans base.symm)

variable (move : Move cfg s label s')
include move

/-- A page is created where the index has none of its base. -/
theorem made {call : Call} {done : Nat} (find : s.find (call.base done) = none)
    (after : s'.fg t = .scrap call done (.held s.created true)) : Lone s' t rounds := by
  refine ⟨fun call' done' pc p at_ aims b q linked base => ?_,
    fun call' done' pc at_ round free => ?_, fun call' done' pc at_ round => ?_, lone.short⟩
  all_goals obtain ⟨rfl, rfl, rfl⟩ := Fg.scrap.inj (after.symm.trans at_)
  · obtain rfl := Option.some.inj aims
    rcases linked_before move linked with before | ⟨new, -⟩
    · obtain ⟨alive, bucket⟩ := sound.owned.indexed b q before
      rw [base_stable (sound.refines move) q alive.1] at base
      obtain rfl : piHash (s.pages q).base = b := bucket
      rw [base] at before
      have missing := List.find?_eq_none.mp find q before
      simp [base] at missing
    · exact new
  · simp [ChunkPc.target] at free
  · rfl

/-- The thread goes on with the page it has. -/
theorem keep {call : Call} {done : Nat} {pc pc' : ChunkPc} (created : s'.created = s.created)
    (position : s.fg t = .scrap call done pc) (after : s'.fg t = .scrap call done pc')
    (target : pc'.target = pc.target)
    (again : rounds ≠ [] → pc.again = true → pc'.again = true) : Lone s' t rounds := by
  refine ⟨fun call' done' pc'' p at_ aims b q linked base => ?_,
    fun call' done' pc'' at_ round free b q linked base => ?_, fun call' done' pc'' at_ round => ?_,
    lone.short⟩
  all_goals obtain ⟨rfl, rfl, rfl⟩ := Fg.scrap.inj (after.symm.trans at_)
  · obtain ⟨before, same⟩ := linked_onward sound move created linked
    exact lone.only call done pc p position (target ▸ aims) b q before (same ▸ base)
  · obtain ⟨before, same⟩ := linked_onward sound move created linked
    exact lone.absent call done pc position round (target ▸ free) b q before (same ▸ base)
  · exact again round (lone.again call done pc position round)

end Pass

/-- The thread itself moves. -/
theorem own {t : Fin n} {rounds : Fin n → List PageId} (lone : Lone s t (rounds t))
    (round : Round s t (rounds t)) (ordinary : Ordinary cfg s) (step : FgMove cfg s label s')
    (mine : label.thread = some t) : Lone s' t (s.goRound label rounds t) := by
  have sound := ordinary.sound
  have move : Move cfg s label s' := .fg step
  have first : ∀ {f : Fg}, s.fg t = f → (∀ call done pc, f ≠ .scrap call done pc) →
      s.goRound label rounds t = [] := by
    intro f position outside
    refine goRound_nil (round.eq_nil (by rw [position]; exact outside)) ?_
    cases f with
    | scrap call done pc => exact absurd rfl (outside call done pc)
    | _ => rw [position]; rfl
  cases step with
  | callZero position | callDirect position | callScrap position | pwrite position =>
    obtain rfl := Option.some.inj mine
    rw [first position (by simp)]
    exact start (by simp +contextual [position, ChunkPc.target])
  | oomPage | oomDirect =>
    obtain rfl := Option.some.inj mine
    rw [goRound_oom]
    exact start (by simp)
  | unlockMore position | unlockDone position =>
    obtain rfl := Option.some.inj mine
    rw [goRound_fg, position]
    exact start (by simp +contextual [ChunkPc.target])
  | @lookupFound u call done p position free find =>
    obtain rfl : u = t := Option.some.inj mine
    rw [goRound_fg, position]
    exact lone.found sound position find rfl rfl (Function.update_self _ _ _)
  | @alloc u call done address zone position free find =>
    obtain rfl : u = t := Option.some.inj mine
    exact lone.made sound move find (Function.update_self _ _ _)
  | gatePass position | gatePark position | parkedPass position | lockPage position
  | unlockRetry position =>
    obtain rfl := Option.some.inj mine
    rw [goRound_fg, position]
    exact lone.keep sound move rfl position (Function.update_self _ _ _) rfl
      (by simp [ChunkPc.again])
  | @partialInc u call done p outcome position | @partialPush u call done p outcome position
  | @fullInc u call done p outcome position | @fullEnter u call done p outcome position
  | @fullPush u call done p outcome position =>
    obtain rfl : u = t := Option.some.inj mine
    rw [goRound_fg, position]
    refine lone.keep sound move rfl position (Function.update_self _ _ _) rfl fun _ again => ?_
    cases outcome with
    | ret => rfl
    | retry => simp [ChunkPc.again] at again
  | @decide u call done p created position decision decided =>
    obtain rfl : u = t := Option.some.inj mine
    rw [goRound_fg, position]
    have target : (decision.next p).target = some p := by
      rw [Decision.next]
      cases decision.enqueue <;> rfl
    refine lone.keep sound move rfl position (Function.update_self _ _ _) target
      fun round again => ?_
    obtain ⟨-, opened, accepts⟩ := lone.merges sound position round
    have way := Decided.of_eq decided
    cases way with
    | seen tag => simp [opened] at tag
    | overflow _ rejected | overflowPush _ rejected => simp [rejected] at accepts
    | full | fullPush | partialPush | stay => rfl
  | @detach u call done p position free =>
    obtain rfl : u = t := Option.some.inj mine
    -- Only the first pass gives a page up.
    have empty : rounds u = [] := by
      by_contra round
      simpa [ChunkPc.again] using lone.again call done _ position round
    have after : update s.fg u (.scrap call done .gate) u = .scrap call done .gate :=
      Function.update_self _ _ _
    rw [goRound_fg, position, Fg.goRound, empty]
    refine ⟨fun call' done' pc q at_ aims => ?_, fun call' done' pc at_ _ _ b q linked base => ?_,
      fun call' done' pc at_ _ => ?_, le_rfl⟩
    all_goals obtain ⟨rfl, rfl, rfl⟩ := Fg.scrap.inj (after.symm.trans at_)
    · simp [ChunkPc.target] at aims
    · obtain ⟨before, same⟩ := linked_onward sound move rfl linked
      obtain rfl := lone.only call done _ p position rfl b q before (same ▸ base)
      exact unlinked_of_detach ordinary move position after b linked
    · rfl

theorem step {t : Fin n} {rounds : Fin n → List PageId} (lone : Lone s t (rounds t))
    (round : Round s t (rounds t)) (ordinary : Ordinary cfg s) (alone : ∀ u, u = t)
    (move : Move cfg s label s') : Lone s' t (s.goRound label rounds t) := by
  by_cases mine : label.thread = some t
  · exact lone.own round ordinary (own_move move mine) mine
  · have background : label.thread = none := by
      cases moves : label.thread with
      | none => rfl
      | some u => exact absurd (alone u ▸ moves) mine
    rw [goRound_frame mine]
    cases position : s.fg t with
    | idle | direct =>
      rw [round.eq_nil (by simp [position])]
      exact start (by simp [fg_frame move mine, position])
    | scrap call done pc =>
      exact lone.keep ordinary.sound move (created_frame move background) position
        (by rw [fg_frame move mine, position]) rfl fun _ again => again

end Lone

/-! ## Along a run -/

theorem sealedOnce_of_run (reached : Reachable cfg file scratch s) : SealedOnce s :=
  reached.invariant_along (Sound cfg) SealedOnce sound_of_run (.init cfg file scratch)
    fun sound once _ stepped => once.step sound (move_of_step stepped)

theorem reachable_of_recorded {both : Engine n × (Fin n → List PageId)}
    (run : Run (recording (Engine.step cfg) Engine.goRound) (fun _ _ => True)
      (Engine.init n cfg file scratch, fun _ => []) both) : Reachable cfg file scratch both.1 :=
  @Run.forget _ _ _ (fun _ _ => True) _ _ _ _ run

theorem round_of_run {rounds : Fin n → List PageId} (run : Looped cfg file scratch s rounds)
    (t : Fin n) : Round s t (rounds t) := by
  refine run.invariant_along (fun both => Ordinary cfg both.1 ∧ SealedOnce both.1)
    (fun both => Round both.1 t (both.2 t)) (fun earlier => ?_) (.nil _ t) ?_
  · have reached := reachable_of_recorded earlier
    exact ⟨ordinary_of_run reached, sealedOnce_of_run reached⟩
  · intro before after label known round _ stepped
    obtain ⟨taken, record⟩ := recording_eq_some stepped
    rw [record]
    exact round.step known.1 known.2 (move_of_step taken)

theorem lone_of_run {rounds : Fin n → List PageId} (run : Looped cfg file scratch s rounds)
    {t : Fin n} (alone : ∀ u, u = t) : Lone s t (rounds t) := by
  refine run.invariant_along (fun both => Ordinary cfg both.1 ∧ Round both.1 t (both.2 t))
    (fun both => Lone both.1 t (both.2 t)) (fun earlier => ?_) (Lone.start (by simp [Engine.init])) ?_
  · exact ⟨ordinary_of_run (reachable_of_recorded earlier), round_of_run earlier t⟩
  · intro before after label known lone _ stepped
    obtain ⟨taken, record⟩ := recording_eq_some stepped
    rw [record]
    exact lone.step known.2 known.1 alone (move_of_step taken)

/-- Every run has its record; no page is sealed twice because its entries ran out; and in every
state of every run, the pages because of which the loop of a thread went round, and the one it is
giving up now, are different pages of its base, each of them sealed.  A thread without rivals goes
round at most once: after that its lookup finds nothing, and the page it holds is one it has just
created and its merge returns `SCRAP_OK`.  It holds of every run, whether or not the allocator
fails or returns an address again. -/
theorem retry_progress (reached : Reachable cfg file scratch s) :
    (∃ rounds, Looped cfg file scratch s rounds) ∧ s.seals.Nodup ∧
    ∀ rounds, Looped cfg file scratch s rounds → ∀ t,
      (rounds t).Nodup ∧
      (∀ p ∈ rounds t, p ∈ s.seals ∧ (s.pages p).base = (s.fg t).chunkBase) ∧
      (∀ p, (s.fg t).retrying = some p ∨ (s.fg t).detaching = some p →
        p ∉ rounds t ∧ p ∈ s.seals ∧ (s.pages p).base = (s.fg t).chunkBase) ∧
      ((∀ u, u = t) → (rounds t).length ≤ 1 ∧ (rounds t ≠ [] → ∀ call done,
        (s.fg t = .scrap call done .lookup → s.find (call.base done) = none) ∧
        ∀ p created, s.fg t = .scrap call done (.held p created) → created = true ∧
          (scrapPageMerge cfg.maxEntries (s.pages p) (call.cells done) (call.intra done)
            (call.chunk done)).1 = .ok)) := by
  have once := sealedOnce_of_run reached
  have ordinary := ordinary_of_run reached
  refine ⟨reached.record Engine.goRound fun _ => [], once.nodup, fun rounds run t => ?_⟩
  have round := round_of_run run t
  refine ⟨round.nodup, fun p member => ?_, fun p holds => ?_, fun alone => ?_⟩
  · obtain ⟨sealed, -, call, done, pc, position, base⟩ := round.tried p member
    exact ⟨sealed, by rw [position]; exact base⟩
  · obtain ⟨call, done, pc, position, target, -⟩ := Fg.position_of_giving_up holds
    refine ⟨round.other call done pc p position target, once.givenUp t p holds, ?_⟩
    rw [position]
    exact ordinary.aimed t call done pc p position target
  · have lone := lone_of_run run alone
    refine ⟨lone.short, fun again call done => ⟨fun position => ?_, fun p created position => ?_⟩⟩
    · refine List.find?_eq_none.mpr fun p linked found => ?_
      exact lone.absent call done _ position again rfl _ p linked (by simpa using found)
    · obtain ⟨made, -, accepts⟩ := lone.merges ordinary.sound position again
      exact ⟨made, accepts⟩

/-- With one header entry the second write seals page 0, goes round once and merges into page 1. -/
theorem retry_progress_of_sealed :
    ∃ (s : Engine 1) (rounds : Fin 1 → List PageId),
      Looped .oneEntry emptyFile (fun _ => 0) s rounds ∧ rounds 0 = [0] ∧ 0 ∈ s.seals ∧
      ∃ call done, s.fg 0 = .scrap call done (.held 1 true) ∧
        (scrapPageMerge Config.oneEntry.maxEntries (s.pages 1) (call.cells done) (call.intra done)
          (call.chunk done)).1 = .ok := by
  obtain ⟨⟨s, rounds⟩, run, round, role⟩ :=
    Run.exists_of_follow (Engine.init 1 .oneEntry emptyFile fun _ => 0, fun _ => [])
      (fun _ _ => true) (sealEntry 0 ++ [.fg 0, .alloc 0 8 fun _ => 1]) (fun _ _ _ => trivial)
      (fun both => both.2 0 = [0] ∧ (both.1.fg 0).role = .holds 1 true)
      (show (Run.follow _ (recording (Engine.step .oneEntry) Engine.goRound) _ _).any _ = true by
        decide +kernel)
  obtain ⟨-, -, all⟩ := retry_progress (reachable_of_recorded run)
  obtain ⟨-, tried, -, alone⟩ := all rounds run 0
  obtain ⟨call, done, position⟩ := Role.position_of_holds role
  have again : rounds 0 ≠ [] := by simp [show rounds 0 = [0] from round]
  have second := ((alone fun u => Subsingleton.elim u 0).2 again call done).2 1 true position
  exact ⟨s, rounds, run, round, (tried 0 (by simp [show rounds 0 = [0] from round])).1, call, done,
    position, second.2⟩

end NoxDB

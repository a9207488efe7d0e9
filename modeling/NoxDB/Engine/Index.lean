import NoxDB.Engine.Membership
import NoxDB.PageIndex

/-! # The index of the engine in memory

The engine has the buckets as lists of pages.  In memory they are the chains of `PageIndex`: every
change of a list is a call that walks the chains, with the same result.  This also holds where the
address given to `page_index_detach_if` is stale.
-/

namespace NoxDB

open Function (update)
open Library.Runs

/-- `page_index_destroy` frees what removing every page frees. -/
theorem IndexSession.clear (pages : List Nat) {s : IndexSession} {chains : Nat → List Nat}
    (linked : s.index.Linked chains) (cover : ∀ b, ∀ p ∈ chains b, p ∈ pages) :
    ∃ s', Run IndexSession.step (fun _ _ => True) s s' ∧ s'.index.Linked (fun _ => []) ∧
      (∀ a, a ∈ s'.index.live ↔ a ∈ s.index.live ∧ ∀ b, a ∉ chains b) ∧
      ∀ a ∈ s.index.owned, a ∈ s'.index.owned := by
  -- Induction on the pages that may still be on a chain; each `remove` takes the one of its base.
  induction pages generalizing s chains with
  | nil =>
    obtain rfl : chains = fun _ => [] := funext fun b =>
      List.eq_nil_iff_forall_not_mem.mpr fun p member => by simpa using cover b p member
    exact ⟨s, .refl, linked, by simp, fun _ owned => owned⟩
  | cons p pages inductionHypothesis =>
    by_cases present : ∃ b, p ∈ chains b
    · obtain ⟨b, here⟩ := present
      obtain rfl := linked.hashed b p here
      have found : s.index.map (s.index.base p) = some p := linked.map_eq_some_iff.mpr ⟨here, rfl⟩
      rcases @PageIndex.remove_eq s.index chains (s.index.base p) linked with
        ⟨absent, -⟩ | ⟨index, victim, same, removed, after, -, live, owned⟩
      · simp [found] at absent
      · obtain rfl := Option.some.inj (found.symm.trans same)
        -- The chains without this page, which is freed.
        have mem := fun {c q} => @PageIndex.Linked.mem_erased s.index chains p linked _ c q here
        have stepped : s.step (.remove (s.index.base p)) =
            some ⟨index, (.remove (s.index.base p), .done) :: s.calls⟩ := by
          rw [IndexSession.step, PageIndex.call, removed]
          rfl
        obtain ⟨s', run, empty, rest, kept⟩ := inductionHypothesis (s := ⟨index, _⟩) after
          fun c q member => (List.mem_cons.mp (cover c q (mem.mp member).1)).resolve_left
            (mem.mp member).2
        refine ⟨s', .trans (.tail .refl trivial stepped) run, empty, fun a => ?_, fun a member => ?_⟩
        · rw [rest, live, List.mem_filter, bne_iff_ne, and_assoc]
          refine and_congr_right fun _ => ?_
          constructor
          · intro others c member
            exact others.2 c (mem.mpr ⟨member, others.1⟩)
          · intro outside
            exact ⟨fun same => outside _ (same ▸ here), fun c member => outside c (mem.mp member).1⟩
        · refine kept a ?_
          rw [owned, List.mem_filter, bne_iff_ne]
          refine ⟨member, ?_⟩
          rintro rfl
          exact (linked.live _ a here).2 member
    · exact inductionHypothesis linked fun b q member =>
        (List.mem_cons.mp (cover b q member)).resolve_left fun same => present ⟨b, same ▸ member⟩

variable {n : Nat}

namespace Custody

variable {c c' : Custody n} {index : PageIndex}

/-- `index` is what the buckets of `c` are in memory. -/
structure Stored (c : Custody n) (index : PageIndex) : Prop where
  linked : index.Linked fun b => (c.buckets b).map c.addr
  bases : ∀ b, ∀ p ∈ c.buckets b, index.base (c.addr p) = c.base p
  live : ∀ a, a ∈ index.live ↔ ∃ p, c.Alive p ∧ c.addr p = a
  owned : ∀ p, c.Alive p → (∀ b, p ∉ c.buckets b) → c.addr p ∈ index.owned

namespace Stored

theorem congr (stored : c.Stored index) (buckets : c'.buckets = c.buckets) (addr : c'.addr = c.addr)
    (base : c'.base = c.base) (created : c'.created = c.created) (freed : c'.freed = c.freed) :
    c'.Stored index := by
  constructor
  · rw [buckets, addr]
    exact stored.linked
  · rw [buckets, addr, base]
    exact stored.bases
  · simp only [Alive, created, freed, addr]
    exact stored.live
  · simp only [Alive, created, freed, addr, buckets]
    exact stored.owned

/-- A lookup finds the same page. -/
theorem map_eq_some_iff (stored : c.Stored index) {base a : Nat} :
    index.map base = some a ↔ ∃ p ∈ c.buckets (piHash base), c.base p = base ∧ c.addr p = a := by
  rw [stored.linked.map_eq_some_iff, List.mem_map]
  constructor
  · rintro ⟨⟨p, member, rfl⟩, same⟩
    exact ⟨p, member, (stored.bases _ p member).symm.trans same, rfl⟩
  · rintro ⟨p, member, same, rfl⟩
    exact ⟨⟨p, member, rfl⟩, (stored.bases _ p member).trans same⟩

/-- Only a page at the address goes. -/
theorem addr_of_unlinked {base address b : Nat} {p : PageId} (member : p ∈ c.buckets b)
    (gone : p ∉ c.unlinkAddr base address b) : b = piHash base ∧ c.addr p = address := by
  by_cases same : b = piHash base
  · subst same
    refine ⟨rfl, by_contra fun differs => gone ?_⟩
    rw [unlinkAddr, Function.update_self]
    exact (List.mem_eraseP_of_neg (by simpa using differs)).mpr member
  · exact absurd member (by simpa [unlinkAddr, same] using gone)

/-- `page_index_detach_if` on the chains. -/
theorem detachIf (stored : c.Stored index) (base address : Nat) :
    ∃ index' answer, index.call (.detachIf base address) = some (index', answer) ∧
      Stored { c with buckets := c.unlinkAddr base address } index' := by
  obtain ⟨index', returned, after, bases, live, owned⟩ :=
    @PageIndex.detachIf_eq index _ base address stored.linked
  -- Both take the first page at this address off the list.
  have lists : (update (fun b => (c.buckets b).map c.addr) (piHash base)
      (((c.buckets (piHash base)).map c.addr).erase address)) =
      fun b => (c.unlinkAddr base address b).map c.addr := by
    funext b
    by_cases same : b = piHash base
    · subst same
      simp only [unlinkAddr, Function.update_self, List.erase_eq_eraseP', List.eraseP_map]
      rfl
    · simp only [unlinkAddr, Function.update_of_ne same]
  refine ⟨index', _, returned, ?_⟩
  constructor
  · exact lists ▸ after
  · intro b p member
    rw [bases]
    exact stored.bases b p (mem_of_mem_unlinkAddr member)
  · rw [live]
    exact stored.live
  · intro p alive outside
    rw [owned]
    by_cases before : ∀ b, p ∉ c.buckets b
    · exact .inl (stored.owned p alive before)
    -- A page that was on a chain before has just been unlinked, so it is the one detached.
    · obtain ⟨b, member⟩ := not_forall_not.mp before
      obtain ⟨rfl, same⟩ := addr_of_unlinked member (outside b)
      exact .inr ⟨same, List.mem_map.mpr ⟨p, member, rfl⟩⟩

/-- The page a writer creates. -/
theorem create (stored : c.Stored index) (inv : c.Ownership) {base address : Nat}
    (absent : ∀ p ∈ c.buckets (piHash base), c.base p ≠ base)
    (unused : ∀ q < c.created, c.freed q = false → c.addr q ≠ address) :
    ∃ index' answer, index.call (.getOrCreate base (some address)) = some (index', answer) ∧
      Stored
        { c with
          created := c.created + 1
          buckets := update c.buckets (piHash base) (c.created :: c.buckets (piHash base))
          addr := update c.addr c.created address
          base := update c.base c.created base } index' := by
  have fresh : address ∉ index.live := by
    rw [stored.live]
    rintro ⟨q, alive, same⟩
    exact unused q alive.1 alive.2 same
  have missing : index.map base = none := by
    refine Option.eq_none_iff_forall_ne_some.mpr fun a found => ?_
    obtain ⟨p, member, same, -⟩ := stored.map_eq_some_iff.mp found
    exact absent p member same
  obtain ⟨index', returned, after, bases, live, owned⟩ :=
    PageIndex.getOrCreate_new stored.linked missing fresh
  -- The number of the new page is that of none on a chain.
  have older : ∀ {b p}, p ∈ c.buckets b → p ≠ c.created := fun {b p} member =>
    Nat.ne_of_lt (inv.indexed b p member).1.1
  have lists : (update (fun b => (c.buckets b).map c.addr) (piHash base)
      (address :: (c.buckets (piHash base)).map c.addr)) =
      fun b => (update c.buckets (piHash base) (c.created :: c.buckets (piHash base)) b).map
        (update c.addr c.created address) := by
    have same : ∀ b, (c.buckets b).map (update c.addr c.created address) =
        (c.buckets b).map c.addr := fun b =>
      List.map_congr_left fun p member => Function.update_of_ne (older member) _ _
    funext b
    by_cases here : b = piHash base
    · subst here
      simp only [Function.update_self, List.map_cons, same]
    · simp only [Function.update_of_ne here, same]
  have unborn : c.freed c.created = false :=
    Bool.eq_false_iff.mpr fun freed => lt_irrefl _ (inv.unborn _ freed)
  refine ⟨index', _, returned, ?_⟩
  constructor
  · exact lists ▸ after
  · intro b p member
    rw [bases]
    rcases Library.Lists.mem_update_cons.mp member with ⟨-, rfl⟩ | old
    · simp only [Function.update_self]
    · have differs : c.addr p ≠ address :=
        unused p (inv.indexed b p old).1.1 (inv.indexed b p old).1.2
      simp only [Function.update_of_ne (older old), Function.update_of_ne differs]
      exact stored.bases b p old
  · intro a
    rw [live, List.mem_cons, stored.live]
    constructor
    · rintro (rfl | ⟨p, alive, rfl⟩)
      · exact ⟨c.created, ⟨Nat.lt_succ_self _, unborn⟩, Function.update_self _ _ _⟩
      · exact ⟨p, ⟨Nat.lt_succ_of_lt alive.1, alive.2⟩,
          Function.update_of_ne (Nat.ne_of_lt alive.1) _ _⟩
    -- A page alive afterwards is the new one or was alive before.
    · rintro ⟨p, ⟨current, unfreed⟩, same⟩
      rcases Nat.lt_succ_iff_lt_or_eq.mp current with old | rfl
      · simp only [Function.update_of_ne (Nat.ne_of_lt old)] at same
        exact .inr ⟨p, ⟨old, unfreed⟩, same⟩
      · simp only [Function.update_self] at same
        exact .inl same.symm
  · rintro p ⟨current, unfreed⟩ outside
    rw [owned]
    rcases Nat.lt_succ_iff_lt_or_eq.mp current with old | rfl
    · simp only [Function.update_of_ne (Nat.ne_of_lt old)]
      refine stored.owned p ⟨old, unfreed⟩ fun b member => outside b ?_
      exact Library.Lists.mem_update_cons.mpr (.inr member)
    · exact absurd (Library.Lists.mem_update_cons.mpr (.inl ⟨rfl, rfl⟩)) (outside (piHash base))

/-- Stage-2 frees a page that is off its chain. -/
theorem free (stored : c.Stored index) (inv : c.Ownership) {p : PageId} (alive : c.Alive p)
    (outside : ∀ b, p ∉ c.buckets b) :
    ∃ index' answer, index.call (.free (c.addr p)) = some (index', answer) ∧
      Stored { c with freed := update c.freed p true } index' := by
  have owned := stored.owned p alive outside
  -- Two pages in use have different addresses.
  have apart : ∀ {q}, c.Alive q → c.addr q = c.addr p → q = p := fun alive' =>
    inv.address _ _ alive' alive
  have off : ∀ b, c.addr p ∉ (c.buckets b).map c.addr := by
    intro b member
    obtain ⟨q, here, same⟩ := List.mem_map.mp member
    exact outside b (apart (inv.indexed b q here).1 same ▸ here)
  refine ⟨index.release (c.addr p), .done, by simp [PageIndex.call, owned], ?_⟩
  constructor
  · exact stored.linked.release off
  · exact stored.bases
  · intro a
    rw [PageIndex.release, List.mem_filter, bne_iff_ne, stored.live]
    constructor
    · rintro ⟨⟨q, alive', rfl⟩, differs⟩
      have other : q ≠ p := fun same => differs (congrArg c.addr same)
      exact ⟨q, ⟨alive'.1, (Function.update_of_ne other _ _).trans alive'.2⟩, rfl⟩
    · rintro ⟨q, ⟨current, unfreed⟩, rfl⟩
      have other : q ≠ p := by
        rintro rfl
        simp at unfreed
      have alive' : c.Alive q := ⟨current, by simpa [other] using unfreed⟩
      exact ⟨⟨q, alive', rfl⟩, fun same => other (apart alive' same)⟩
  · rintro q ⟨current, unfreed⟩ outside'
    have other : q ≠ p := by
      rintro rfl
      simp at unfreed
    have alive' : c.Alive q := ⟨current, by simpa [other] using unfreed⟩
    rw [PageIndex.release, List.mem_filter, bne_iff_ne]
    exact ⟨stored.owned q alive' outside', fun same => other (apart alive' same)⟩

/-- `page_index_destroy` frees the pages on the chains. -/
theorem destroy {session : IndexSession} (stored : c.Stored session.index) (inv : c.Ownership)
    {resident : List PageId} (all : ∀ p, p ∈ resident ↔ ∃ b, p ∈ c.buckets b) :
    ∃ session', Run IndexSession.step (fun _ _ => True) session session' ∧
      Stored { c with
        freed := fun p => c.freed p || resident.contains p
        buckets := fun _ => [] } session'.index := by
  obtain ⟨session', run, empty, live, owned⟩ :=
    IndexSession.clear (resident.map c.addr) stored.linked fun b a member => by
      obtain ⟨p, here, rfl⟩ := List.mem_map.mp member
      exact List.mem_map.mpr ⟨p, (all p).mpr ⟨b, here⟩, rfl⟩
  -- Alive afterwards is what was alive and off the chains.
  have kept : ∀ p, (p < c.created ∧ (c.freed p || resident.contains p) = false) ↔
      c.Alive p ∧ ∀ b, p ∉ c.buckets b := by
    intro p
    rw [Bool.or_eq_false_iff, List.contains_eq_mem, decide_eq_false_iff_not, all, not_exists,
      ← and_assoc]
    rfl
  have addresses : ∀ p, c.Alive p → ((∀ b, c.addr p ∉ (c.buckets b).map c.addr) ↔
      ∀ b, p ∉ c.buckets b) := by
    intro p alive
    refine forall_congr' fun b => not_congr ⟨fun member => ?_, List.mem_map_of_mem⟩
    obtain ⟨q, here, same⟩ := List.mem_map.mp member
    exact inv.address q p (inv.indexed b q here).1 alive same ▸ here
  refine ⟨session', run, empty, by simp, fun a => ?_, fun p alive _ => ?_⟩
  · rw [live, stored.live]
    constructor
    · rintro ⟨⟨p, alive, rfl⟩, outside⟩
      exact ⟨p, (kept p).mpr ⟨alive, (addresses p alive).mp outside⟩, rfl⟩
    · rintro ⟨p, alive, rfl⟩
      obtain ⟨alive, outside⟩ := (kept p).mp alive
      exact ⟨⟨p, alive, rfl⟩, (addresses p alive).mpr outside⟩
  · obtain ⟨alive, outside⟩ := (kept p).mp alive
    exact owned _ (stored.owned p alive outside)

/-- One call is a session of one step. -/
theorem session_of_call {session : IndexSession} {op : IndexOp}
    (called : ∃ index' answer, session.index.call op = some (index', answer) ∧ c'.Stored index') :
    ∃ session', Run IndexSession.step (fun _ _ => True) session session' ∧
      c'.Stored session'.index := by
  obtain ⟨index', answer, returned, stored⟩ := called
  have stepped : session.step op = some ⟨index', (op, answer) :: session.calls⟩ := by
    rw [IndexSession.step, returned]
    rfl
  exact ⟨_, .tail .refl trivial stepped, stored⟩

/-- However custody changes hands, the memory follows by calls of the index. -/
theorem step {session : IndexSession} (stored : c.Stored session.index) (inv : c.Ownership)
    (step : c.Step c') :
    ∃ session', Run IndexSession.step (fun _ _ => True) session session' ∧
      c'.Stored session'.index := by
  cases step with
  | create idle free absent unused =>
    obtain ⟨session', run, after⟩ := session_of_call (stored.create inv absent unused)
    exact ⟨session', run, after.congr rfl rfl rfl rfl rfl⟩
  | abandon =>
    obtain ⟨session', run, after⟩ := session_of_call (stored.detachIf _ _)
    exact ⟨session', run, after.congr rfl rfl rfl rfl rfl⟩
  | unlink =>
    obtain ⟨session', run, after⟩ := session_of_call (stored.detachIf _ _)
    exact ⟨session', run, after.congr rfl rfl rfl rfl rfl⟩
  | @free p rest front =>
    have tagged : p ∈ c.tagged := by simp [front]
    obtain ⟨session', run, after⟩ := session_of_call
      (stored.free inv (inv.live p (mem_pipe_of_tagged tagged))
        (inv.unlinked p (List.mem_append_left _ tagged)))
    exact ⟨session', run, after.congr rfl rfl rfl rfl rfl⟩
  | destroy _ _ all => exact stored.destroy inv all
  | _ => exact ⟨session, .refl, stored.congr rfl rfl rfl rfl rfl⟩

end Stored

end Custody

variable {cfg : Config} {file : File} {scratch : Nat → UInt8} {s : Engine n}

/-- In every reachable state the lists of the engine are the chains of a table that calls of the
index have built, and looking up a base finds the same page in both. -/
theorem exists_index_of_run (reached : Reachable cfg file scratch s) :
    ∃ session, Run IndexSession.step (fun _ _ => True) IndexSession.start session ∧
      s.custody.Stored session.index ∧
      ∀ base, session.index.map base = (s.find base).map s.addr := by
  have stored : ∃ session, Run IndexSession.step (fun _ _ => True) IndexSession.start session ∧
      s.custody.Stored session.index := by
    refine reached.invariant_along (Sound cfg)
      (fun s => ∃ session, Run IndexSession.step (fun _ _ => True) IndexSession.start session ∧
        s.custody.Stored session.index) sound_of_run ?_ ?_
    · refine ⟨.start, .refl, .create, by simp [Engine.custody, Engine.init], fun a => ?_, ?_⟩
      · simp [IndexSession.start, PageIndex.create, Custody.Alive, Engine.custody, Engine.init]
      · simp [Custody.Alive, Engine.custody, Engine.init]
    · rintro state next label sound ⟨session, run, stored⟩ - stepped
      -- The step moves no page, or it is one of the changes of custody.
      rcases sound.refines (move_of_step stepped) with same | step
      · exact ⟨session, run, same ▸ stored⟩
      · obtain ⟨session', more, after⟩ := stored.step sound.owned step
        exact ⟨session', run.trans more, after⟩
  obtain ⟨session, run, stored⟩ := stored
  refine ⟨session, run, stored, fun base => Option.ext fun a => ?_⟩
  rw [stored.map_eq_some_iff, Option.map_eq_some_iff]
  constructor
  · rintro ⟨p, member, same, rfl⟩
    have same : (s.pages p).base = base := same
    cases found : s.find base with
    | none => exact absurd same (by simpa using List.find?_eq_none.mp found p member)
    | some q =>
      have here := List.mem_of_find?_eq_some found
      have other : (s.pages q).base = base := by simpa using List.find?_some found
      obtain rfl : q = p := (sound_of_run reached).owned.single _ q here p member
        (other.trans same.symm)
      exact ⟨q, rfl, rfl⟩
  · rintro ⟨p, found, rfl⟩
    have same : (s.pages p).base = base := by simpa using List.find?_some found
    exact ⟨p, List.mem_of_find?_eq_some found, same, rfl⟩

/-- After the small write its page is found at its address. -/
theorem exists_index_of_written :
    ∃ (s : Engine 1) (session : IndexSession), Reachable .standard emptyFile (fun _ => 0) s ∧
      Run IndexSession.step (fun _ _ => True) IndexSession.start session ∧
      s.custody.Stored session.index ∧ session.index.map 0 = some 7 := by
  obtain ⟨s, reached, found⟩ := exists_reachable .standard emptyFile (fun _ => 0) tinyWrite
    (fun s : Engine 1 => (s.find 0).map s.addr = some 7) (by decide +kernel)
  obtain ⟨session, run, stored, same⟩ := exists_index_of_run reached
  exact ⟨s, session, reached, run, stored, (same 0).trans found⟩

end NoxDB

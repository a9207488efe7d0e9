import NoxDB.Config
import NoxDB.Library.Links
import NoxDB.Library.Lists
import NoxDB.Library.Runs

/-! # The page index

The hash table of `page_index.c`.  A page is its address, a bucket is a chain through the `next`
fields, and every operation walks the chain of its base.  Operations on one bucket have the same
shard lock, and operations on different buckets write different fields, so each is one step
(`NoxDB.PageIndex.Linear` takes them apart into their statements).

The index is a map from bases to pages (`IndexOp.onMap`), except that `page_index_detach_if`
compares only addresses: it also unlinks a page that it meets on the chain of another base.
-/

namespace NoxDB

open Function (update)
open Library.Links
open Library.Runs

/-- The buckets, and the fields of pages that the index reads. -/
structure PageIndex where
  buckets : Nat → Option Nat
  next : Nat → Option Nat
  base : Nat → Nat
  /-- The pages that are allocated. -/
  live : List Nat
  /-- The pages that were detached and wait for their owner to free them. -/
  owned : List Nat

/-- A call, with the answer of the allocator where there is one. -/
inductive IndexOp
  | getOrCreate (base : Nat) (memory : Option Nat)
  | detachIf (base expect : Nat)
  | remove (base : Nat)
  | free (page : Nat)
deriving DecidableEq, Repr

/-- What a call returns. -/
inductive IndexAnswer
  | page (page : Nat) (created : Bool)
  | null
  | unlinked (yes : Bool)
  | done
deriving DecidableEq, Repr

namespace PageIndex

/-- `page_index_create` -/
def create : PageIndex where
  buckets := fun _ => none
  next := fun _ => none
  base := fun _ => 0
  live := []
  owned := []

/-- A chain without a cycle is not longer than this. -/
def fuel (s : PageIndex) : Nat := s.live.length + 1

/-- `*link = value` on the chain of bucket `b`. -/
def store (s : PageIndex) (b : Nat) (link : Slot Nat) (value : Option Nat) : PageIndex :=
  { s with
    next := link.storeNext s.next value
    buckets := update s.buckets b (link.storeHead (s.buckets b) value) }

/-- `scrap_page_free` -/
def release (s : PageIndex) (p : Nat) : PageIndex :=
  { s with live := s.live.filter (· != p), owned := s.owned.filter (· != p) }

/-- `page_index_get_or_create`: the allocator hands out memory that is not in use. -/
def getOrCreate (s : PageIndex) (base : Nat) (memory : Option Nat) :
    Option (PageIndex × IndexAnswer) :=
  match find s.next (fun p => s.base p == base) s.fuel (s.buckets (piHash base)) with
  | none => none
  | some (some p) => some (s, .page p false)
  | some none =>
    match memory with
    | none => some (s, .null)
    | some p =>
      if p ∈ s.live then none
      else
        some ({ s with
          base := update s.base p base
          next := update s.next p (s.buckets (piHash base))
          buckets := update s.buckets (piHash base) (some p)
          live := p :: s.live }, .page p true)

/-- `page_index_remove` -/
def remove (s : PageIndex) (base : Nat) : Option (PageIndex × IndexAnswer) :=
  match seek s.next (s.buckets (piHash base)) (fun p => s.base p == base) s.fuel .head with
  | none => none
  | some none => some (s, .done)
  | some (some (link, victim)) =>
    some ((s.store (piHash base) link (s.next victim)).release victim, .done)

/-- `page_index_detach_if`: the page goes to the caller. -/
def detachIf (s : PageIndex) (base expect : Nat) : Option (PageIndex × IndexAnswer) :=
  match seek s.next (s.buckets (piHash base)) (fun p => p == expect) s.fuel .head with
  | none => none
  | some none => some (s, .unlinked false)
  | some (some (link, _)) =>
    let unlinked := s.store (piHash base) link (s.next expect)
    some ({ unlinked with
      next := update unlinked.next expect none
      owned := expect :: s.owned }, .unlinked true)

def call (s : PageIndex) : IndexOp → Option (PageIndex × IndexAnswer)
  | .getOrCreate base memory => s.getOrCreate base memory
  | .detachIf base expect => s.detachIf base expect
  | .remove base => s.remove base
  | .free p => if p ∈ s.owned then some (s.release p, .done) else none

/-- `page_index_foreach`: the pages that are visited, in order. -/
def foreach (s : PageIndex) : Option (List Nat) :=
  ((List.range piBuckets).mapM fun b => visit s.next s.fuel (s.buckets b)).map List.flatten

/-- The pages on the chain of bucket `b`. -/
def chain (s : PageIndex) (b : Nat) : List Nat := (visit s.next s.fuel (s.buckets b)).getD []

/-- The index as a map from bases to pages. -/
def map (s : PageIndex) (base : Nat) : Option Nat :=
  (s.chain (piHash base)).find? fun p => s.base p == base

end PageIndex

/-- The same call of a map. -/
def IndexOp.onMap (map : Nat → Option Nat) : IndexOp → (Nat → Option Nat) × IndexAnswer
  | .getOrCreate base memory =>
    match map base, memory with
    | some p, _ => (map, .page p false)
    | none, none => (map, .null)
    | none, some p => (update map base (some p), .page p true)
  | .detachIf base expect =>
    if map base = some expect then (update map base none, .unlinked true)
    else (map, .unlinked false)
  | .remove base => (update map base none, .done)
  | .free _ => (map, .done)

/-! ## The chains -/

namespace PageIndex

variable {s s' : PageIndex} {chains : Nat → List Nat} {base p : Nat}

/-- The buckets are chains of allocated pages, every page is in the bucket of its base, and no two
pages have one base. -/
structure Linked (s : PageIndex) (chains : Nat → List Nat) : Prop where
  chain : ∀ b, Chain s.next (s.buckets b) (chains b)
  hashed : ∀ b, ∀ p ∈ chains b, piHash (s.base p) = b
  single : ∀ b, ∀ p ∈ chains b, ∀ q ∈ chains b, s.base p = s.base q → p = q
  live : ∀ b, ∀ p ∈ chains b, p ∈ s.live ∧ p ∉ s.owned
  owned : ∀ p ∈ s.owned, p ∈ s.live

namespace Linked

theorem short (linked : Linked s chains) (b : Nat) : (chains b).length < s.fuel := by
  have among : chains b ⊆ s.live := fun p member => (linked.live b p member).1
  exact Nat.lt_succ_of_le (List.subperm_of_subset (linked.chain b).nodup among).length_le

theorem visits (linked : Linked s chains) (b : Nat) :
    visit s.next s.fuel (s.buckets b) = some (chains b) :=
  visit_eq (linked.chain b) (linked.short b)

theorem chain_eq (linked : Linked s chains) : s.chain = chains := by
  funext b
  rw [PageIndex.chain, linked.visits]
  rfl

theorem map_eq_some_iff (linked : Linked s chains) :
    s.map base = some p ↔ p ∈ chains (piHash base) ∧ s.base p = base := by
  rw [PageIndex.map, linked.chain_eq]
  constructor
  · intro found
    exact ⟨List.mem_of_find?_eq_some found, by simpa using List.find?_some found⟩
  · rintro ⟨member, same⟩
    -- No two pages of the chain have this base, so the first one found is this one.
    cases found : (chains (piHash base)).find? fun p => s.base p == base with
    | none => exact absurd same (by simpa using List.find?_eq_none.mp found p member)
    | some q =>
      have other : s.base q = base := by simpa using List.find?_some found
      have present := List.mem_of_find?_eq_some found
      rw [linked.single _ q present p member (other.trans same.symm)]

/-- No page is on two chains. -/
theorem apart (linked : Linked s chains) {b c : Nat} (here : p ∈ chains b) (there : p ∈ chains c) :
    b = c :=
  (linked.hashed b p here).symm.trans (linked.hashed c p there)

/-! ## Unlinking -/

/-- The chains without page `p`. -/
theorem mem_erased (linked : Linked s chains) {b c q : Nat} (here : p ∈ chains b) :
    q ∈ update chains b ((chains b).erase p) c ↔ q ∈ chains c ∧ q ≠ p := by
  by_cases same : c = b
  · subst same
    rw [Function.update_self, (linked.chain c).nodup.mem_erase_iff, and_comm]
  · rw [Function.update_of_ne same]
    refine ⟨fun member => ⟨member, ?_⟩, And.left⟩
    rintro rfl
    exact same (linked.apart member here)

/-- The page is off its chain and the others are as they were. -/
theorem unlink (linked : Linked s chains) {b : Nat} {before after : List Nat}
    (split : chains b = before ++ p :: after) :
    Linked (s.store b (.behind before) (s.next p)) (update chains b ((chains b).erase p)) := by
  have here : p ∈ chains b := by simp [split]
  have cut : Chain s.next (s.buckets b) (before ++ p :: after) := split ▸ linked.chain b
  -- No page is on the chain twice, so it is not before itself.
  have erased : (chains b).erase p = before ++ after := by
    have unmet : p ∉ before := fun member =>
      (List.nodup_append.mp cut.nodup).2.2 p member p List.mem_cons_self rfl
    rw [split, List.erase_append_right _ unmet, List.erase_cons_head]
  refine
    { chain := fun c => ?_
      hashed := fun c q member => linked.hashed c q ((linked.mem_erased here).mp member).1
      single := fun c q member r memberToo =>
        linked.single c q ((linked.mem_erased here).mp member).1 r
          ((linked.mem_erased here).mp memberToo).1
      live := fun c q member => linked.live c q ((linked.mem_erased here).mp member).1
      owned := linked.owned }
  by_cases same : c = b
  · subst same
    simp only [store, Function.update_self, erased]
    exact cut.unlink
  · simp only [store, Function.update_of_ne same]
    -- Only the link of a page of bucket `b` is written.
    rcases List.eq_nil_or_concat before with rfl | ⟨earlier, last, rfl⟩
    · exact linked.chain c
    · rw [List.concat_eq_append] at split ⊢
      rw [Slot.behind_concat]
      have lastHere : last ∈ chains b := by simp [split]
      exact (linked.chain c).update (fun there => same (linked.apart there lastHere)) _

/-- The map without the page. -/
theorem map_erased (linked : Linked s chains) {b : Nat} (here : p ∈ chains b)
    (after : Linked s' (update chains b ((chains b).erase p))) (bases : s'.base = s.base) :
    s'.map = update s.map (s.base p) none := by
  funext base
  refine Option.ext fun q => ?_
  rw [after.map_eq_some_iff, linked.mem_erased here, bases]
  by_cases same : base = s.base p
  · subst same
    rw [Function.update_self]
    refine iff_of_false ?_ (by simp)
    -- Another page of the same base would be the same page.
    rintro ⟨⟨member, differs⟩, bases⟩
    exact differs (linked.single b q (linked.hashed b p here ▸ member) p here bases)
  · rw [Function.update_of_ne same, linked.map_eq_some_iff]
    refine ⟨fun found => ⟨found.1.1, found.2⟩, fun found => ⟨⟨found.1, ?_⟩, found.2⟩⟩
    rintro rfl
    exact same found.2.symm

/-- Memory that no chain uses can be freed. -/
theorem release (linked : Linked s chains) (outside : ∀ b, p ∉ chains b) :
    Linked (s.release p) chains where
  chain := linked.chain
  hashed := linked.hashed
  single := linked.single
  live b q member := by
    have differs : q ≠ p := by
      rintro rfl
      exact outside b member
    simpa [PageIndex.release, differs] using linked.live b q member
  owned q member := by
    simp only [PageIndex.release, List.mem_filter] at member ⊢
    exact ⟨linked.owned q member.1, member.2⟩

/-- Memory that no chain uses can be handed to an owner, with its link cleared. -/
theorem handOver (linked : Linked s chains) (outside : ∀ b, p ∉ chains b) (live : p ∈ s.live) :
    Linked { s with next := update s.next p none, owned := p :: s.owned } chains where
  chain b := (linked.chain b).update (outside b) none
  hashed := linked.hashed
  single := linked.single
  live b q member := by
    have differs : q ≠ p := by
      rintro rfl
      exact outside b member
    simpa [differs] using linked.live b q member
  owned := by
    rintro q owned
    rcases List.mem_cons.mp owned with rfl | old
    · exact live
    · exact linked.owned q old

/-! ## Inserting -/

/-- The page of `base` at address `p`, at the head of its bucket. -/
theorem insert (linked : Linked s chains) (fresh : p ∉ s.live) (absent : s.map base = none) :
    Linked
      { s with
        base := update s.base p base
        next := update s.next p (s.buckets (piHash base))
        buckets := update s.buckets (piHash base) (some p)
        live := p :: s.live }
      (update chains (piHash base) (p :: chains (piHash base))) := by
  -- Memory that is not in use is no page of any chain.
  have outside : ∀ c, p ∉ chains c := fun c member => fresh (linked.live c p member).1
  have old : ∀ {c q}, q ∈ chains c → update s.base p base q = s.base q := fun {c q} member =>
    Function.update_of_ne (ne_of_mem_of_not_mem member (outside c)) _ _
  -- The lookup has found no page of this base.
  have other : ∀ q ∈ chains (piHash base), s.base q ≠ base := fun q member same => by
    simpa [absent] using linked.map_eq_some_iff.mpr ⟨member, same⟩
  constructor
  · intro c
    by_cases same : c = piHash base
    · subst same
      simp only [Function.update_self]
      refine ⟨rfl, ?_⟩
      rw [Function.update_self]
      exact (linked.chain _).update (outside _) _
    · simp only [Function.update_of_ne same]
      exact (linked.chain c).update (outside c) _
  · intro c q member
    rcases Library.Lists.mem_update_cons.mp member with ⟨rfl, rfl⟩ | member
    · simp only [Function.update_self]
    · simp only [old member]
      exact linked.hashed c q member
  -- The new page is the only one of its base.
  · intro c q member r memberToo bases
    rcases Library.Lists.mem_update_cons.mp member with ⟨rfl, rfl⟩ | first
    · rcases Library.Lists.mem_update_cons.mp memberToo with ⟨-, rfl⟩ | second
      · rfl
      · simp only [Function.update_self, old second] at bases
        exact absurd bases.symm (other r second)
    · rcases Library.Lists.mem_update_cons.mp memberToo with ⟨rfl, rfl⟩ | second
      · simp only [Function.update_self, old first] at bases
        exact absurd bases (other q first)
      · simp only [old first, old second] at bases
        exact linked.single c q first r second bases
  · intro c q member
    rcases Library.Lists.mem_update_cons.mp member with ⟨-, rfl⟩ | member
    · exact ⟨List.mem_cons_self, fun owned => fresh (linked.owned q owned)⟩
    · exact (linked.live c q member).imp_left (List.mem_cons_of_mem _)
  · exact fun q owned => List.mem_cons_of_mem _ (linked.owned q owned)

theorem map_inserted (linked : Linked s chains) (fresh : p ∉ s.live)
    (after' : Linked s' (update chains (piHash base) (p :: chains (piHash base))))
    (bases : s'.base = update s.base p base) : s'.map = update s.map base (some p) := by
  have old : ∀ {c q}, q ∈ chains c → update s.base p base q = s.base q := fun {c q} member =>
    Function.update_of_ne (ne_of_mem_of_not_mem (linked.live c q member).1 fresh) _ _
  funext other
  by_cases same : other = base
  · subst same
    rw [Function.update_self, after'.map_eq_some_iff, bases]
    exact ⟨by simp, Function.update_self _ _ _⟩
  · rw [Function.update_of_ne same]
    -- A page of another base is another page than the new one.
    refine Option.ext fun q => ?_
    rw [after'.map_eq_some_iff, linked.map_eq_some_iff, Library.Lists.mem_update_cons, bases]
    constructor
    · rintro ⟨⟨-, rfl⟩ | member, found⟩
      · rw [Function.update_self] at found
        exact absurd found.symm same
      · exact ⟨member, old member ▸ found⟩
    · rintro ⟨member, found⟩
      exact ⟨.inr member, (old member).trans found⟩

theorem own (linked : Linked s chains) : Linked s s.chain := linked.chain_eq ▸ linked

end Linked

/-! ## The operations -/

section Operations

variable {memory : Option Nat} {expect : Nat} (linked : Linked s chains)
include linked

/-- The loop of `page_index_get_or_create` is a lookup in the map. -/
theorem finds : find s.next (fun p => s.base p == base) s.fuel (s.buckets (piHash base)) =
    some (s.map base) := by
  rw [PageIndex.map, linked.chain_eq]
  exact find_eq (linked.chain _) _ (linked.short _)

theorem getOrCreate_found (present : s.map base = some p) :
    s.getOrCreate base memory = some (s, .page p false) := by
  rw [getOrCreate.eq_def, finds linked, present]

theorem getOrCreate_oom (absent : s.map base = none) :
    s.getOrCreate base none = some (s, .null) := by
  rw [getOrCreate, finds linked, absent]

theorem getOrCreate_new (absent : s.map base = none) (fresh : p ∉ s.live) :
    ∃ s', s.getOrCreate base (some p) = some (s', .page p true) ∧
      Linked s' (update chains (piHash base) (p :: chains (piHash base))) ∧
      s'.base = update s.base p base ∧ s'.live = p :: s.live ∧ s'.owned = s.owned := by
  refine ⟨_, ?_, linked.insert fresh absent, rfl, rfl, rfl⟩
  rw [getOrCreate, finds linked, absent]
  exact if_neg fresh

theorem getOrCreate_used (absent : s.map base = none) (used : p ∈ s.live) :
    s.getOrCreate base (some p) = none := by
  rw [getOrCreate, finds linked, absent]
  exact if_pos used

/-- `page_index_remove` frees the page of the base, if there is one. -/
theorem remove_eq :
    (s.map base = none ∧ s.remove base = some (s, .done)) ∨
    ∃ s' victim, s.map base = some victim ∧ s.remove base = some (s', .done) ∧
      Linked s' (update chains (piHash base) ((chains (piHash base)).erase victim)) ∧
      s'.base = s.base ∧ s'.live = s.live.filter (· != victim) ∧
      s'.owned = s.owned.filter (· != victim) := by
  obtain ⟨result, walk, sought⟩ :=
    seek_eq (linked.chain (piHash base)) (fun p => s.base p == base) (linked.short _)
  rw [remove, walk]
  cases sought with
  | absent none_ =>
    -- The walk came to the end of the chain without the base.
    left
    refine ⟨?_, rfl⟩
    rw [PageIndex.map, linked.chain_eq]
    exact List.find?_eq_none.mpr (by simpa using none_)
  | found before victim after split passed =>
    right
    -- The victim was on this chain alone and is on none once it is unlinked.
    have here : victim ∈ chains (piHash base) := by simp [split]
    have outside : ∀ c, victim ∉
        update chains (piHash base) ((chains (piHash base)).erase victim) c := fun c member =>
      ((linked.mem_erased here).mp member).2 rfl
    refine ⟨_, victim, ?_, rfl, (linked.unlink split).release outside, rfl, rfl, rfl⟩
    exact linked.map_eq_some_iff.mpr ⟨here, by simpa using passed⟩

/-- `page_index_detach_if` takes the page off the chain if it is on it. -/
theorem detachIf_eq :
    ∃ s', s.detachIf base expect =
        some (s', .unlinked (decide (expect ∈ chains (piHash base)))) ∧
      Linked s' (update chains (piHash base) ((chains (piHash base)).erase expect)) ∧
      s'.base = s.base ∧ s'.live = s.live ∧
      ∀ p, p ∈ s'.owned ↔ p ∈ s.owned ∨ p = expect ∧ p ∈ chains (piHash base) := by
  obtain ⟨result, walk, sought⟩ :=
    seek_eq (linked.chain (piHash base)) (fun p => p == expect) (linked.short _)
  rw [detachIf, walk]
  cases sought with
  | absent none_ =>
    have absent : expect ∉ chains (piHash base) := fun member => by simpa using none_ _ member
    refine ⟨s, by simp [absent], ?_, rfl, rfl, ?_⟩
    · rw [List.erase_of_not_mem absent, Function.update_eq_self]
      exact linked
    · rintro p
      refine ⟨.inl, fun either => either.resolve_right ?_⟩
      rintro ⟨rfl, member⟩
      exact absent member
  | found before node after split passed =>
    obtain rfl : node = expect := by simpa using passed
    have here : node ∈ chains (piHash base) := by simp [split]
    have outside : ∀ c, node ∉
        update chains (piHash base) ((chains (piHash base)).erase node) c := fun c member =>
      ((linked.mem_erased here).mp member).2 rfl
    -- The page is off every chain before its link is cleared.
    have given := (linked.unlink split).handOver outside (linked.live _ node here).1
    rw [decide_eq_true here]
    refine ⟨_, rfl, given, rfl, rfl, fun p => ?_⟩
    rw [List.mem_cons, or_comm]
    refine or_congr_right ⟨fun same => ⟨same, same ▸ here⟩, And.left⟩

end Operations

/-- The allocator hands out memory that is not in use, and only the owner of a page frees it. -/
def Allowed (s : PageIndex) : IndexOp → Prop
  | .getOrCreate _ (some p) => p ∉ s.live
  | .free p => p ∈ s.owned
  | _ => True

/-- Every loop over a chain ends. -/
theorem Linked.returns (linked : Linked s chains) {op : IndexOp} (allowed : s.Allowed op) :
    (s.call op).isSome = true := by
  cases op with
  | getOrCreate base memory =>
    rw [call]
    cases present : s.map base with
    | some p => rw [getOrCreate_found linked present, Option.isSome_some]
    | none =>
      cases memory with
      | none => rw [getOrCreate_oom linked present, Option.isSome_some]
      | some p =>
        obtain ⟨s', created, -⟩ := getOrCreate_new linked present allowed
        rw [created, Option.isSome_some]
  | detachIf base expect =>
    obtain ⟨s', returned, -⟩ := @detachIf_eq s chains base expect linked
    rw [call, returned, Option.isSome_some]
  | remove base =>
    rw [call]
    rcases @remove_eq s chains base linked with ⟨-, returned⟩ | ⟨s', victim, -, returned, -⟩
    · rw [returned, Option.isSome_some]
    · rw [returned, Option.isSome_some]
  | free p => simp only [call, if_pos (show p ∈ s.owned from allowed), Option.isSome_some]

/-- A call of `page_index_detach_if` that meets the page on the chain names the base of the
page. -/
def OwnBase (s : PageIndex) : IndexOp → Prop
  | .detachIf base expect => expect ∈ s.chain (piHash base) → s.base expect = base
  | _ => True

/-- What a call does: it keeps the chains, it does what it does to a map if it meets the condition,
and returns something else if not. -/
structure Answered (s : PageIndex) (op : IndexOp) (s' : PageIndex) (answer : IndexAnswer) :
    Prop where
  linked : Linked s' s'.chain
  asMap : s.OwnBase op → (s'.map, answer) = op.onMap s.map
  only : answer = (op.onMap s.map).2 → s.OwnBase op

variable {answer : IndexAnswer} {memory : Option Nat} {expect : Nat}

theorem Linked.getOrCreate (linked : Linked s s.chain)
    (returned : s.getOrCreate base memory = some (s', answer)) :
    s.Answered (.getOrCreate base memory) s' answer := by
  cases present : s.map base with
  | some p =>
    rw [getOrCreate_found linked present] at returned
    cases returned
    exact ⟨linked, fun _ => by simp only [IndexOp.onMap, present], fun _ => trivial⟩
  | none =>
    cases memory with
    | none =>
      rw [getOrCreate_oom linked present] at returned
      cases returned
      exact ⟨linked, fun _ => by simp only [IndexOp.onMap, present], fun _ => trivial⟩
    | some p =>
      by_cases used : p ∈ s.live
      · rw [getOrCreate_used linked present used] at returned
        cases returned
      · obtain ⟨index, created, after, bases, -⟩ := getOrCreate_new linked present used
        rw [created] at returned
        cases returned
        refine ⟨after.own, fun _ => ?_, fun _ => trivial⟩
        simp only [IndexOp.onMap, present]
        rw [linked.map_inserted used after bases]

theorem Linked.remove (linked : Linked s s.chain) (returned : s.remove base = some (s', answer)) :
    s.Answered (.remove base) s' answer := by
  rcases @remove_eq s _ base linked with
    ⟨absent, removed⟩ | ⟨index, victim, present, removed, after, bases, -⟩
  · rw [removed] at returned
    cases returned
    refine ⟨linked, fun _ => ?_, fun _ => trivial⟩
    rw [IndexOp.onMap, ← absent, Function.update_eq_self]
  · rw [removed] at returned
    cases returned
    obtain ⟨here, same⟩ := linked.map_eq_some_iff.mp present
    refine ⟨after.own, fun _ => ?_, fun _ => trivial⟩
    rw [IndexOp.onMap, linked.map_erased here after bases, same]

theorem Linked.detachIf (linked : Linked s s.chain)
    (returned : s.detachIf base expect = some (s', answer)) :
    s.Answered (.detachIf base expect) s' answer := by
  obtain ⟨index, detached, after, bases, -⟩ := @detachIf_eq s _ base expect linked
  rw [detached] at returned
  cases returned
  -- The index unlinks a page of the chain, a map only the page of the base.
  have sent : s.map base = some expect ↔
      expect ∈ s.chain (piHash base) ∧ s.base expect = base := linked.map_eq_some_iff
  refine ⟨after.own, fun ownBase => ?_, fun same here => ?_⟩
  · rw [IndexOp.onMap]
    by_cases here : expect ∈ s.chain (piHash base)
    · have own := ownBase here
      rw [if_pos (sent.mpr ⟨here, own⟩), linked.map_erased here after bases, own]
      simp [here]
    -- Nothing is unlinked if the page is not on the chain.
    · rw [List.erase_of_not_mem here, Function.update_eq_self] at after
      have kept : s'.map = s.map := by
        funext other
        refine Option.ext fun q => ?_
        rw [after.map_eq_some_iff, linked.map_eq_some_iff, bases]
      rw [if_neg fun found => here (sent.mp found).1, kept]
      simp [here]
  · -- The answer of a map is 1 only for the page of this base.
    by_contra other
    rw [IndexOp.onMap, if_neg fun found => other (sent.mp found).2] at same
    simp [here] at same

theorem Linked.free (linked : Linked s s.chain)
    (returned : s.call (.free p) = some (s', answer)) : s.Answered (.free p) s' answer := by
  by_cases owned : p ∈ s.owned
  · obtain ⟨rfl, rfl⟩ : s.release p = s' ∧ .done = answer := by
      simpa [PageIndex.call, owned] using returned
    have outside : ∀ b, p ∉ s.chain b := fun b member => (linked.live b p member).2 owned
    have freed := linked.release outside
    refine ⟨freed.own, fun _ => ?_, fun _ => trivial⟩
    rw [IndexOp.onMap]
    refine congrArg (·, _) (funext fun base => Option.ext fun q => ?_)
    rw [freed.map_eq_some_iff, linked.map_eq_some_iff]
    rfl
  · simp [PageIndex.call, owned] at returned

theorem Linked.call (linked : Linked s s.chain) {op : IndexOp}
    (returned : s.call op = some (s', answer)) : s.Answered op s' answer := by
  cases op with
  | getOrCreate base memory => exact linked.getOrCreate returned
  | detachIf base expect => exact linked.detachIf returned
  | remove base => exact linked.remove returned
  | free p => exact linked.free returned

theorem Linked.create : Linked create fun _ => [] := by
  constructor <;> simp [PageIndex.create, Chain]

/-- What the table is in every state: the buckets are chains that end and repeat no page, a page is
in the bucket of its base and the only page of it, one lock guards a bucket, a walk over the whole
table meets every page once, and every call returns. -/
structure HashTable (s : PageIndex) : Prop where
  chained : ∀ b, Chain s.next (s.buckets b) (s.chain b) ∧ (s.chain b).Nodup
  hashed : ∀ b, ∀ p ∈ s.chain b, b = piHash (s.base p) ∧ b < 1024
  single : ∀ b c, ∀ p ∈ s.chain b, ∀ q ∈ s.chain c, s.base p = s.base q → p = q
  sharded : ∀ base base', piHash base = piHash base' →
    piShard (piHash base) = piShard (piHash base') ∧ piShard (piHash base) < 64
  visited : ∃ pages, s.foreach = some pages ∧ pages.Nodup ∧
    ∀ p, p ∈ pages ↔ ∃ base, s.map base = some p
  returns : ∀ op, s.Allowed op → (s.call op).isSome = true

theorem Linked.foreach (linked : Linked s s.chain) :
    s.foreach = some ((List.range piBuckets).flatMap s.chain) := by
  have walks : (List.range piBuckets).mapM (fun b => visit s.next s.fuel (s.buckets b)) =
      some ((List.range piBuckets).map s.chain) := by
    simp only [linked.visits]
    exact List.mapM_pure
  rw [PageIndex.foreach, walks, List.flatMap]
  rfl

theorem Linked.hashTable (linked : Linked s s.chain) : HashTable s where
  chained b := ⟨linked.chain b, (linked.chain b).nodup⟩
  hashed b p member := by
    have bucket := linked.hashed b p member
    exact ⟨bucket.symm, bucket ▸ piHash_lt _⟩
  single b c p member q memberToo bases := by
    obtain rfl : b = c := by
      rw [← linked.hashed b p member, ← linked.hashed c q memberToo, bases]
    exact linked.single b p member q memberToo bases
  sharded base base' same := by
    refine ⟨congrArg piShard same, ?_⟩
    have bound := piHash_lt base
    rw [piShard]
    simp only [piBuckets] at bound
    omega
  visited := by
    refine ⟨_, linked.foreach, ?_, fun p => ?_⟩
    · refine List.nodup_flatMap.mpr ⟨fun b _ => (linked.chain b).nodup, ?_⟩
      refine List.nodup_range.imp fun {b c} differs p here there => differs (linked.apart here there)
    · rw [List.mem_flatMap]
      constructor
      · rintro ⟨b, -, member⟩
        have bucket := linked.hashed b p member
        exact ⟨s.base p, linked.map_eq_some_iff.mpr ⟨bucket.symm ▸ member, rfl⟩⟩
      · rintro ⟨base, found⟩
        exact ⟨_, List.mem_range.mpr (piHash_lt base), (linked.map_eq_some_iff.mp found).1⟩
  returns op := linked.returns

end PageIndex

/-! ## Sequences of calls -/

/-- The index with the calls made so far and what they returned, the last one first. -/
structure IndexSession where
  index : PageIndex
  calls : List (IndexOp × IndexAnswer)

def IndexSession.step (s : IndexSession) (op : IndexOp) : Option IndexSession :=
  (s.index.call op).map fun result => ⟨result.1, (op, result.2) :: s.calls⟩

def IndexSession.start : IndexSession := ⟨.create, []⟩

/-- The map after these calls, if they are those of a map. -/
def replay : List (IndexOp × IndexAnswer) → Option (Nat → Option Nat)
  | [] => some fun _ => none
  | (op, answer) :: calls =>
    (replay calls).bind fun map =>
      if (op.onMap map).2 = answer then some (op.onMap map).1 else none

theorem replay_cons {op : IndexOp} {answer : IndexAnswer} {calls : List (IndexOp × IndexAnswer)}
    {map : Nat → Option Nat} :
    replay ((op, answer) :: calls) = some map ↔
      ∃ earlier, replay calls = some earlier ∧ op.onMap earlier = (map, answer) := by
  rw [replay, Option.bind_eq_some_iff]
  refine exists_congr fun earlier => and_congr_right fun _ => ?_
  rw [Option.ite_none_right_eq_some, Option.some.injEq, Prod.ext_iff, and_comm]

variable {s s' : IndexSession} {op : IndexOp}

/-- A session whose calls are those of a map, if they are, left its contents in the index. -/
structure Mapped (s : IndexSession) : Prop where
  linked : s.index.Linked s.index.chain
  replayed : ∀ map, replay s.calls = some map → map = s.index.map

theorem IndexSession.step_eq_some (stepped : s.step op = some s') :
    ∃ answer, s.index.call op = some (s'.index, answer) ∧ s'.calls = (op, answer) :: s.calls := by
  obtain ⟨⟨index, answer⟩, returned, rfl⟩ := Option.map_eq_some_iff.mp stepped
  exact ⟨answer, returned, rfl⟩

/-- A call goes on as a map exactly when it meets the condition. -/
theorem Mapped.replay_iff (mapped : Mapped s) (stepped : s.step op = some s') :
    replay s'.calls = some s'.index.map ↔
      replay s.calls = some s.index.map ∧ s.index.OwnBase op := by
  obtain ⟨answer, returned, calls⟩ := IndexSession.step_eq_some stepped
  have answered := mapped.linked.call returned
  rw [calls, replay_cons]
  constructor
  · rintro ⟨map, replayed, called⟩
    -- There is one map the earlier calls can have led to.
    obtain rfl := mapped.replayed map replayed
    exact ⟨replayed, answered.only (by rw [called])⟩
  · rintro ⟨replayed, ownBase⟩
    exact ⟨_, replayed, (answered.asMap ownBase).symm⟩

theorem Mapped.step (mapped : Mapped s) (stepped : s.step op = some s') : Mapped s' := by
  obtain ⟨answer, returned, calls⟩ := IndexSession.step_eq_some stepped
  have answered := mapped.linked.call returned
  refine ⟨answered.linked, fun map replayed => ?_⟩
  rw [calls, replay_cons] at replayed
  obtain ⟨earlier, replayed, called⟩ := replayed
  obtain rfl := mapped.replayed earlier replayed
  rw [← answered.asMap (answered.only (by rw [called]))] at called
  exact (Prod.ext_iff.mp called).1.symm

/-- After any sequence of calls the index is a hash table.  What the calls returned and left in it
is what a map would have, exactly when no `page_index_detach_if` met its page on the chain under
another base than the one it was called with. -/
theorem index_map_exact {met : Prop}
    (run : Run (recording IndexSession.step (conforming fun s => s.index.OwnBase)) (fun _ _ => True)
      (IndexSession.start, True) (s, met)) :
    s.index.HashTable ∧ (replay s.calls = some s.index.map ↔ met) := by
  have linked : PageIndex.create.Linked PageIndex.create.chain := PageIndex.Linked.create.own
  have empty : replay [] = some PageIndex.create.map := rfl
  have both : Mapped s ∧ (True → (replay s.calls = some s.index.map ↔ met)) := by
    refine Run.holds_iff_conforming (fun _ _ => True) run Mapped (fun _ => True)
      (fun s => replay s.calls = some s.index.map) ⟨linked, fun map same => ?_⟩ empty ?_ ?_ ?_
    · exact (Option.some.inj (empty.symm.trans same)).symm
    · exact fun mapped _ stepped => mapped.step stepped
    · exact fun _ _ => trivial
    · exact fun mapped _ _ stepped => mapped.replay_iff stepped
  exact ⟨both.1.linked.hashTable, both.2 trivial⟩

/-- What evaluating calls that pass a test shows of the session they end in. -/
theorem exists_session {condition : IndexOp → Prop} (test : IndexOp → Bool)
    (sufficient : ∀ op, test op = true → condition op) (ops : List IndexOp)
    (shows : IndexSession → Prop) [DecidablePred shows]
    (followed : (Run.follow (fun _ op => test op) IndexSession.step .start ops).any
      (fun s => shows s) = true) :
    ∃ s, Run IndexSession.step (fun _ op => condition op) IndexSession.start s ∧ shows s :=
  Run.exists_of_follow _ _ ops (fun _ op => sufficient op) shows followed

/-- The page of base `0` and the page of this base are in one bucket. -/
def collidingBase : Nat := 610 * zoneSize

/-- Two pages in one bucket, the older one detached by its own base. -/
theorem index_map_exact_of_collision :
    ∃ (s : IndexSession) (met : Prop),
      Run (recording IndexSession.step (conforming fun s => s.index.OwnBase)) (fun _ _ => True)
        (IndexSession.start, True) (s, met) ∧
      s.index.chain 0 = [2] ∧ s.index.HashTable ∧ (replay s.calls = some s.index.map ↔ met) := by
  obtain ⟨s, run, chain⟩ :=
    exists_session (fun _ => true) (fun _ _ => trivial)
      [.getOrCreate 0 (some 1), .getOrCreate collidingBase (some 2), .detachIf 0 1]
      (fun s => s.index.chain 0 = [2]) (by decide +kernel)
  obtain ⟨met, recorded⟩ := run.record (conforming fun s => s.index.OwnBase) True
  exact ⟨s, met, recorded, chain, index_map_exact recorded⟩

/-- The base of the call is 256KB-aligned. -/
def IndexOp.aligned : IndexOp → Bool
  | .getOrCreate base _ | .detachIf base _ | .remove base =>
    base % zoneSize == 0 && decide (base < word)
  | .free _ => true

/-- The page of one base is detached and freed, and its memory becomes the page of another base of
the bucket.  Who still has the address of the first page detaches the second. -/
theorem index_map_stale :
    ¬ ∀ s : IndexSession,
      Run IndexSession.step (fun _ op => op.aligned = true) IndexSession.start s →
      s.index.HashTable ∧ replay s.calls = some s.index.map := by
  intro claimed
  obtain ⟨s, run, differs⟩ :=
    exists_session IndexOp.aligned (fun _ passed => passed)
      [.getOrCreate collidingBase (some 1), .detachIf collidingBase 1, .free 1,
        .getOrCreate 0 (some 1), .detachIf collidingBase 1]
      (fun s => (replay s.calls).isNone = true) (by decide +kernel)
  simp [(claimed s run).2] at differs

end NoxDB

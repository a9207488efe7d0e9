import Mathlib.Data.List.Nodup
import Mathlib.Logic.Function.Basic

/-! # Lists linked through their nodes

Every node has one link, and `next` holds all of them.  A list is a variable with its first node;
the rest of it is in the links.  The same links can carry several lists, as long as no node is in
two of them.
-/

namespace Library.Links

open Function (update)

variable {Node : Type} {next next' : Node → Option Node} {head value : Option Node}
  {nodes others before after : List Node} {node : Node}

/-- Following the links from `head` visits `nodes` in their order and then ends. -/
def Chain (next : Node → Option Node) : Option Node → List Node → Prop
  | head, [] => head = none
  | head, node :: rest => head = some node ∧ Chain next (next node) rest

namespace Chain

theorem unique (chain : Chain next head nodes) (other : Chain next head others) :
    nodes = others := by
  induction nodes generalizing head others with
  | nil =>
    cases others with
    | nil => rfl
    | cons node rest => exact absurd (other.1.symm.trans chain) (Option.some_ne_none node)
  | cons node rest inductionHypothesis =>
    cases others with
    | nil => exact absurd (chain.1.symm.trans other) (Option.some_ne_none node)
    | cons node' rest' =>
      obtain rfl := Option.some.inj (chain.1.symm.trans other.1)
      rw [inductionHypothesis chain.2 other.2]

theorem appendRight (chain : Chain next head (before ++ node :: after)) :
    Chain next (some node) (node :: after) := by
  induction before generalizing head with
  | nil => exact ⟨rfl, chain.2⟩
  | cons first before inductionHypothesis => exact inductionHypothesis chain.2

/-- A list that ends has no cycle: from a node met twice it would have two lengths. -/
theorem nodup (chain : Chain next head nodes) : nodes.Nodup := by
  induction nodes generalizing head with
  | nil => exact List.nodup_nil
  | cons node rest inductionHypothesis =>
    refine List.nodup_cons.mpr ⟨fun member => ?_, inductionHypothesis chain.2⟩
    obtain ⟨before, after, rfl⟩ := List.append_of_mem member
    have again : Chain next (some node) (node :: after) := chain.2.appendRight
    have whole : Chain next (some node) (node :: (before ++ node :: after)) := ⟨rfl, chain.2⟩
    have lengths := congrArg List.length (whole.unique again)
    simp only [List.length_cons, List.length_append] at lengths
    omega

theorem congr (chain : Chain next head nodes) (same : ∀ node ∈ nodes, next' node = next node) :
    Chain next' head nodes := by
  induction nodes generalizing head with
  | nil => exact chain
  | cons node rest inductionHypothesis =>
    refine ⟨chain.1, ?_⟩
    rw [same node List.mem_cons_self]
    exact inductionHypothesis chain.2 fun other member => same other (List.mem_cons_of_mem _ member)

theorem head_eq (chain : Chain next head nodes) : head = nodes.head? := by
  cases nodes with
  | nil => exact chain
  | cons node rest => exact chain.1

theorem of_head (chain : Chain next head nodes) (first : head = some node) :
    ∃ rest, nodes = node :: rest := by
  cases nodes with
  | nil => exact absurd (first.symm.trans chain) (Option.some_ne_none node)
  | cons node' rest =>
    obtain rfl := Option.some.inj (first.symm.trans chain.1)
    exact ⟨rest, rfl⟩

theorem eq_nil (chain : Chain next none nodes) : nodes = [] :=
  chain.unique rfl

theorem next_eq (chain : Chain next head (before ++ node :: after)) : next node = after.head? :=
  chain.appendRight.2.head_eq

variable [DecidableEq Node]

/-- The link of a node outside the list can be written. -/
theorem update (chain : Chain next head nodes) (outside : node ∉ nodes) (value : Option Node) :
    Chain (update next node value) head nodes :=
  chain.congr fun _ member => Function.update_of_ne (ne_of_mem_of_not_mem member outside) _ _

/-- Writing the link of a node of the list replaces what comes after it. -/
theorem redirect (chain : Chain next head (before ++ node :: after))
    (tail : Chain next value others) (outside : node ∉ others) :
    Chain (Function.update next node value) head (before ++ node :: others) := by
  have nodup := chain.nodup
  induction before generalizing head with
  | nil =>
    refine ⟨chain.1, ?_⟩
    rw [Function.update_self]
    exact tail.update outside value
  | cons first before inductionHypothesis =>
    obtain ⟨apart, nodup⟩ := List.nodup_cons.mp nodup
    have differs : first ≠ node := by
      rintro rfl
      simp at apart
    refine ⟨chain.1, ?_⟩
    rw [Function.update_of_ne differs]
    exact inductionHypothesis chain.2 nodup

end Chain

/-! ## Walks

A loop over the links ends only if they do, so a walk takes the number of steps it may make. -/

/-- The nodes a loop over the list visits. -/
def visit (next : Node → Option Node) : Nat → Option Node → Option (List Node)
  | 0, _ => none
  | _ + 1, none => some []
  | fuel + 1, some node => (visit next fuel (next node)).map (node :: ·)

theorem visit_eq (chain : Chain next head nodes) {fuel : Nat} (enough : nodes.length < fuel) :
    visit next fuel head = some nodes := by
  induction nodes generalizing head fuel with
  | nil =>
    obtain rfl : head = none := chain
    cases fuel with
    | zero => simp at enough
    | succ fuel => rfl
  | cons node rest inductionHypothesis =>
    obtain ⟨rfl, chain⟩ := chain
    cases fuel with
    | zero => simp at enough
    | succ fuel =>
      rw [visit, inductionHypothesis chain (Nat.lt_of_succ_lt_succ enough)]
      rfl

/-- The first node that passes the test, `some none` if the list ends before. -/
def find (next : Node → Option Node) (test : Node → Bool) :
    Nat → Option Node → Option (Option Node)
  | 0, _ => none
  | _ + 1, none => some none
  | fuel + 1, some node => if test node then some (some node) else find next test fuel (next node)

theorem find_eq (chain : Chain next head nodes) (test : Node → Bool) {fuel : Nat}
    (enough : nodes.length < fuel) : find next test fuel head = some (nodes.find? test) := by
  induction nodes generalizing head fuel with
  | nil =>
    obtain rfl : head = none := chain
    cases fuel with
    | zero => simp at enough
    | succ fuel => rfl
  | cons node rest inductionHypothesis =>
    obtain ⟨rfl, chain⟩ := chain
    cases fuel with
    | zero => simp at enough
    | succ fuel =>
      rw [find, List.find?_cons, inductionHypothesis chain (Nat.lt_of_succ_lt_succ enough)]
      cases test node <;> rfl

/-- A place that holds a link: the variable with the first node, or the link of a node. -/
inductive Slot (Node : Type)
  | head
  | after (node : Node)
deriving DecidableEq, Repr

namespace Slot

/-- `*slot` -/
def load (next : Node → Option Node) (head : Option Node) : Slot Node → Option Node
  | .head => head
  | .after node => next node

/-- The slot that holds what comes after `before`. -/
def behind (before : List Node) : Slot Node :=
  match before.getLast? with
  | none => .head
  | some node => .after node

@[simp]
theorem behind_concat : behind (before ++ [node]) = .after node := by simp [behind]

/-- The links after `*slot = value`. -/
def storeNext [DecidableEq Node] (slot : Slot Node) (next : Node → Option Node)
    (value : Option Node) : Node → Option Node :=
  match slot with
  | .head => next
  | .after node => update next node value

/-- The first node after `*slot = value`. -/
def storeHead (slot : Slot Node) (head value : Option Node) : Option Node :=
  match slot with
  | .head => value
  | .after _ => head

end Slot

/-- The walk of a pointer to a link: the place of the link to the first node that passes the test,
and that node. -/
def seek (next : Node → Option Node) (head : Option Node) (test : Node → Bool) :
    Nat → Slot Node → Option (Option (Slot Node × Node))
  | 0, _ => none
  | fuel + 1, slot =>
    match slot.load next head with
    | none => some none
    | some node =>
      if test node then some (some (slot, node)) else seek next head test fuel (.after node)

/-- What a walk finds: a split of the list at the node, or nothing. -/
inductive Sought (nodes : List Node) (test : Node → Bool) : Option (Slot Node × Node) → Prop
  | absent (none_ : ∀ node ∈ nodes, test node = false) : Sought nodes test none
  | found (before : List Node) (node : Node) (after : List Node)
      (split : nodes = before ++ node :: after) (passed : test node = true)
      (earlier : ∀ other ∈ before, test other = false) :
      Sought nodes test (some (.behind before, node))

theorem load_behind (chain : Chain next head (before ++ after)) :
    (Slot.behind before).load next head = after.head? := by
  rcases List.eq_nil_or_concat before with rfl | ⟨earlier, last, rfl⟩
  · exact chain.head_eq
  · rw [List.concat_eq_append] at chain ⊢
    rw [Slot.behind_concat]
    exact Chain.next_eq (by simpa using chain)

theorem seek_from (before : List Node) (chain : Chain next head (before ++ after))
    (test : Node → Bool) (earlier : ∀ other ∈ before, test other = false) {fuel : Nat}
    (enough : after.length < fuel) :
    ∃ result, seek next head test fuel (.behind before) = some result ∧
      Sought (before ++ after) test result := by
  induction after generalizing before fuel with
  | nil =>
    cases fuel with
    | zero => simp at enough
    | succ fuel =>
      refine ⟨none, ?_, .absent (by simpa using earlier)⟩
      rw [seek, load_behind chain]
      rfl
  | cons node rest inductionHypothesis =>
    cases fuel with
    | zero => simp at enough
    | succ fuel =>
      rw [seek, load_behind chain, List.head?_cons]
      cases passed : test node with
      | true => exact ⟨_, if_pos passed, .found before node rest rfl passed earlier⟩
      | false =>
        -- The walk goes on behind `node`.
        have walked : before ++ node :: rest = (before ++ [node]) ++ rest := by simp
        rw [walked] at chain ⊢
        have far : ∀ other ∈ before ++ [node], test other = false := by
          intro other member
          rcases List.mem_append.mp member with old | new
          · exact earlier other old
          · rw [List.mem_singleton.mp new, passed]
        simpa [passed] using inductionHypothesis _ chain far (Nat.lt_of_succ_lt_succ enough)

theorem seek_eq (chain : Chain next head nodes) (test : Node → Bool) {fuel : Nat}
    (enough : nodes.length < fuel) :
    ∃ result, seek next head test fuel .head = some result ∧ Sought nodes test result :=
  seek_from [] chain test (by simp) enough

/-- Storing the link of a node in the place that links to the node takes it out of the list. -/
theorem Chain.unlink [DecidableEq Node] (chain : Chain next head (before ++ node :: after)) :
    Chain ((Slot.behind before).storeNext next (next node))
      ((Slot.behind before).storeHead head (next node)) (before ++ after) := by
  have rest := chain.appendRight.2
  rcases List.eq_nil_or_concat before with rfl | ⟨earlier, last, rfl⟩
  · exact rest
  · rw [List.concat_eq_append] at chain ⊢
    have linked : Chain next head (earlier ++ last :: node :: after) := by simpa using chain
    have outside : last ∉ after := by
      have nodup := (List.nodup_append.mp linked.nodup).2.1
      simp only [List.nodup_cons, List.mem_cons, not_or] at nodup
      exact nodup.1.2
    rw [Slot.behind_concat, List.append_assoc]
    exact linked.redirect rest outside

end Library.Links

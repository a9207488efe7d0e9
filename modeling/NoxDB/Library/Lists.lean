import Mathlib.Data.List.Basic
import Mathlib.Data.List.Nodup
import Mathlib.Data.List.Perm.Basic
import Mathlib.Logic.Function.Basic

/-! # Updated functions and families of lists -/

namespace Library.Lists

open Function (update)

variable {α β γ : Type} [DecidableEq α]

theorem map_update (f : β → γ) (g : α → β) (a : α) (b : β) :
    (fun x => f (update g a b x)) = update (fun x => f (g x)) a (f b) :=
  Function.comp_update f g a b

/-- An update that keeps what `f` sees is not seen through `f`. -/
theorem map_update_same {f : β → γ} {g : α → β} {a : α} {b : β} (same : f b = f (g a)) :
    (fun x => f (update g a b x)) = fun x => f (g x) := by
  rw [map_update, same]
  exact Function.update_eq_self a fun x => f (g x)

theorem mem_update_cons {a b : α} {chains : α → List β} {p q : β} :
    q ∈ update chains a (p :: chains a) b ↔ b = a ∧ q = p ∨ q ∈ chains b := by
  by_cases same : b = a
  · subst same; simp
  · simp [same]

omit [DecidableEq α] in
/-- Erasing the only element that passes a test removes it. -/
theorem not_mem_eraseP {chain : List α} {p : α} {test : α → Bool} (nodup : chain.Nodup)
    (found : test p = true) (only : ∀ q ∈ chain, test q = true → q = p) :
    p ∉ chain.eraseP test := by
  induction chain with
  | nil => simp
  | cons q chain inductionHypothesis =>
    obtain ⟨notMem, nodup⟩ := List.nodup_cons.mp nodup
    by_cases hit : test q = true
    · rw [List.eraseP_cons_of_pos hit]
      obtain rfl := only q (by simp) hit
      exact notMem
    · rw [List.eraseP_cons_of_neg hit]
      have differs : p ≠ q := fun same => hit (same ▸ found)
      simpa [differs] using inductionHypothesis nodup fun r member => only r (by simp [member])

/-! ## What follows an element -/

/-- The element after `p`, read off the part of the list that starts at `p`. -/
theorem exists_of_next {chain : List α} {p q : α}
    (next : (chain.dropWhile fun x => x != p)[1]? = some q) :
    ∃ before after, chain = before ++ p :: q :: after := by
  induction chain with
  | nil => simp at next
  | cons x chain inductionHypothesis =>
    by_cases same : x = p
    · subst same
      cases chain with
      | nil => simp at next
      | cons y after =>
        obtain rfl : y = q := by simpa using next
        exact ⟨[], after, rfl⟩
    · obtain ⟨before, after, rfl⟩ := inductionHypothesis (by simpa [same] using next)
      exact ⟨x :: before, after, rfl⟩

/-- What comes after the first `p`. -/
def after (chain : List α) (p : α) : List α := (chain.dropWhile fun x => x != p).tail

theorem after_of_split {before rest : List α} {p : α} (absent : p ∉ before) :
    after (before ++ p :: rest) p = rest := by
  induction before with
  | nil => simp [after]
  | cons x before inductionHypothesis =>
    obtain ⟨differs, absent⟩ := not_or.mp (mt List.mem_cons.mpr absent)
    rw [List.cons_append, after, List.dropWhile_cons_of_pos (by simpa using Ne.symm differs)]
    exact inductionHypothesis absent

theorem head?_after (chain : List α) (p : α) :
    (after chain p).head? = (chain.dropWhile fun x => x != p)[1]? := by
  rw [after, List.head?_tail]

theorem after_head {rest : List α} (p : α) : after (p :: rest) p = rest :=
  after_of_split List.not_mem_nil

theorem after_next {chain rest : List α} {p q : α} (nodup : chain.Nodup) (member : p ∈ chain)
    (next : after chain p = q :: rest) : after chain q = rest := by
  obtain ⟨before, tail, rfl, absent⟩ := List.eq_append_cons_of_mem member
  rw [after_of_split absent] at next
  subst next
  have split : (before ++ [p]) ++ q :: rest = before ++ p :: q :: rest := by simp
  rw [← split] at nodup ⊢
  apply after_of_split
  exact fun earlier => List.disjoint_of_nodup_append nodup earlier List.mem_cons_self

theorem sublist_of_mem_after {chain : List α} {p q : α} (member : p ∈ chain)
    (follows : q ∈ after chain p) : [p, q].Sublist chain := by
  obtain ⟨before, rest, rfl, absent⟩ := List.eq_append_cons_of_mem member
  rw [after_of_split absent] at follows
  exact List.sublist_append_of_sublist_right (by simpa using follows)

theorem length_after_le (chain : List α) (p : α) : (after chain p).length ≤ chain.length - 1 := by
  rw [after, List.length_tail]
  exact Nat.sub_le_sub_right (List.dropWhile_sublist _).length_le 1

/-- Taking elements out of a list takes none to the part after `p`. -/
theorem length_after_of_sublist {chain rest : List α} (p : α) (part : rest.Sublist chain) :
    (after rest p).length ≤ (after chain p).length := by
  induction part with
  | slnil => exact Nat.le_refl _
  | @cons rest chain x part inductionHypothesis =>
    by_cases same : x = p
    · subst same
      rw [after_head]
      exact Nat.le_trans (length_after_le rest x) (Nat.le_trans (Nat.sub_le _ _) part.length_le)
    · have skip : after (x :: chain) p = after chain p := by simp [after, same]
      rwa [skip]
  | @cons_cons rest chain x part inductionHypothesis =>
    by_cases same : x = p
    · subst same
      rw [after_head, after_head]
      exact part.length_le
    · have skip : ∀ list : List α, after (x :: list) p = after list p := by simp [after, same]
      rwa [skip, skip]

/-- Erasing something that does not come after `p` does not change what does. -/
theorem after_eraseP {chain : List α} {p q : α} {test : α → Bool} (member : p ∈ chain)
    (only : ∀ x ∈ chain, test x = true → x = q) (other : p ≠ q) (outside : q ∉ after chain p) :
    after (chain.eraseP test) p = after chain p := by
  obtain ⟨before, rest, rfl, absent⟩ := List.eq_append_cons_of_mem member
  rw [after_of_split absent] at outside ⊢
  have untouched : (p :: rest).eraseP test = p :: rest := by
    apply List.eraseP_of_forall_not
    intro x among passes
    have same := only x (List.mem_append_right _ among) passes
    rcases List.mem_cons.mp among with rfl | later
    · exact other same
    · exact outside (same ▸ later)
  rw [List.eraseP_append]
  split
  · exact after_of_split fun still => absent (List.mem_of_mem_eraseP still)
  · rw [untouched]
    exact after_of_split absent

omit [DecidableEq α] in
theorem mem_after {before after : List α} {q r : α} (absent : q ∉ before)
    (follows : [q, r].Sublist (before ++ q :: after)) : r ∈ after := by
  induction before with
  | nil =>
    rcases List.cons_sublist_cons'.mp follows with later | ⟨-, here⟩
    · exact later.subset (by simp)
    · exact here.subset (by simp)
  | cons x before inductionHypothesis =>
    rcases List.cons_sublist_cons'.mp follows with later | ⟨same, -⟩
    · exact inductionHypothesis (fun member => absent (by simp [member])) later
    · exact absurd (by simp [same]) absent

/-! ## What the elements of a list carry -/

variable {list : List α} {carry : α → Option β} {a : α} {b : β}

theorem filterMap_update_of_not_mem (absent : a ∉ list) (value : Option β) :
    list.filterMap (update carry a value) = list.filterMap carry := by
  refine List.filterMap_congr fun x member => ?_
  rw [Function.update_of_ne]
  rintro rfl
  exact absent member

/-- An element that carried nothing picks something up. -/
theorem filterMap_update_some (nodup : list.Nodup) (member : a ∈ list) (empty : carry a = none) :
    (list.filterMap (update carry a (some b))).Perm (b :: list.filterMap carry) := by
  induction list with
  | nil => simp at member
  | cons x list inductionHypothesis =>
    obtain ⟨absent, nodup⟩ := List.nodup_cons.mp nodup
    by_cases same : x = a
    · subst same
      rw [List.filterMap_cons_some (b := b) (by simp), List.filterMap_cons_none empty,
        filterMap_update_of_not_mem absent]
    · have tail := inductionHypothesis nodup (by simpa [Ne.symm same] using member)
      cases held : carry x with
      | none =>
        rw [List.filterMap_cons_none (by simpa [same] using held), List.filterMap_cons_none held]
        exact tail
      | some y =>
        rw [List.filterMap_cons_some (b := y) (by simpa [same] using held),
          List.filterMap_cons_some held]
        exact (tail.cons y).trans (List.Perm.swap _ _ _)

/-- An element puts down what it carried. -/
theorem filterMap_update_none (nodup : list.Nodup) (member : a ∈ list) (held : carry a = some b) :
    (list.filterMap carry).Perm (b :: list.filterMap (update carry a none)) := by
  have back : update (update carry a none) a (some b) = carry := by
    rw [Function.update_idem, ← held, Function.update_eq_self]
  have picked : (list.filterMap (update (update carry a none) a (some b))).Perm
      (b :: list.filterMap (update carry a none)) :=
    filterMap_update_some nodup member (by simp)
  rwa [back] at picked

end Library.Lists

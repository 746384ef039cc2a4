import Mathlib.Data.List.Nodup
import Mathlib.Algebra.Order.Ring.Nat
import Mathlib.Order.Basic

/-!
# Deletion from the binary search tree

A node with two children gets the element that `FindMin` finds in its right subtree. The source has
`FindMin` twice: a recursive one that goes to the left is in a comment, and the loop that is in use
goes to the right. So `Delete` puts the greatest element of the right subtree in front of the
others.

Nodes are values of a tree type, since every subtree is reached through one pointer. The message for
an element that is not found is left out.
-/

namespace CodeLearning.Bst

/-- `SearchTree`: `NULL`, or a node with its fields. -/
inductive SearchTree (α : Type) where
  /-- `NULL`. -/
  | null
  /-- A node. -/
  | node (left : SearchTree α) (element : α) (right : SearchTree α)
deriving DecidableEq

namespace SearchTree

variable {α : Type}

/-- `FindMin`, with the element of the node; the loop goes to the right. -/
def findMin : SearchTree α → Option α
  | null => none
  | node _ element null => some element
  | node _ _ (node left element right) => findMin (node left element right)

/-- The elements in order. -/
def inorder : SearchTree α → List α
  | null => []
  | node left element right => left.inorder ++ element :: right.inorder

variable [LinearOrder α]

/-- `Find`. -/
def find : SearchTree α → α → SearchTree α
  | null, _ => null
  | node left element right, x =>
    if x < element then left.find x
    else if x > element then right.find x
    else node left element right

/-- `Delete`. -/
def delete : SearchTree α → α → SearchTree α
  | null, _ => null
  | node left element right, x =>
    if x < element then node (left.delete x) element right
    else if x > element then node left element (right.delete x)
    else if left ≠ null ∧ right ≠ null then
      match right.findMin with
      | some least => node left least (right.delete least)
      | none => null
    else if left = null then right
    else left

/-- The search order. -/
def Ordered : SearchTree α → Prop
  | null => True
  | node left element right => (∀ x ∈ left.inorder, x < element) ∧
    (∀ x ∈ right.inorder, element < x) ∧ left.Ordered ∧ right.Ordered

/-- What a deletion is to do. -/
structure Deleted (x : α) (before after : SearchTree α) : Prop where
  /-- The tree is in order. -/
  ordered : after.Ordered
  /-- The element is removed from the sequence. -/
  sequence : after.inorder = before.inorder.erase x
  /-- Without the element the tree stays as it is. -/
  unchanged : x ∉ before.inorder → after = before

/-- The node of the element does not have two children, or its right child is a leaf. -/
def Replaceable (x : α) (tree : SearchTree α) : Prop :=
  ∀ left element right, tree.find x = node left element right → left ≠ null → right ≠ null →
    ∃ least, right = node null least null

/-! ## The search order -/

variable {x least : α} {tree left right : SearchTree α} {element : α}

omit [LinearOrder α] in
/-- The sequence of a node. -/
@[simp] theorem inorder_node :
    (node left element right).inorder = left.inorder ++ element :: right.inorder := rfl

omit [LinearOrder α] in
/-- No elements. -/
@[simp] theorem inorder_null : (null : SearchTree α).inorder = [] := rfl

/-- A tree is in order when its sequence is increasing. -/
theorem ordered_iff : tree.Ordered ↔ tree.inorder.Pairwise (· < ·) := by
  induction tree with
  | null => simp [Ordered]
  | node left element right inLeft inRight =>
    rw [Ordered, inLeft, inRight, inorder_node, List.pairwise_append, List.pairwise_cons]
    constructor
    · rintro ⟨below, above, sortedL, sortedR⟩
      refine ⟨sortedL, ⟨above, sortedR⟩, ?_⟩
      intro a memL b memR
      rcases List.mem_cons.mp memR with rfl | memR
      · exact below a memL
      · exact (below a memL).trans (above b memR)
    · rintro ⟨sortedL, ⟨above, sortedR⟩, across⟩
      exact ⟨fun a mem => across a mem element List.mem_cons_self, above, sortedL, sortedR⟩

/-- No element occurs twice. -/
theorem Ordered.nodup (ordered : tree.Ordered) : tree.inorder.Nodup :=
  (ordered_iff.mp ordered).imp ne_of_lt

omit [LinearOrder α] in
/-- A tree without elements. -/
theorem inorder_eq_nil : tree.inorder = [] ↔ tree = null := by
  cases tree with
  | null => simp
  | node left element right => simp

omit [LinearOrder α] in
/-- A tree with one element. -/
theorem inorder_eq_singleton : tree.inorder = [x] ↔ tree = node null x null := by
  cases tree with
  | null => simp
  | node left element right =>
    simp [List.append_eq_singleton_iff, inorder_eq_nil, and_left_comm]

/-! ## The greatest element -/

omit [LinearOrder α] in
/-- `FindMin` finds the last element. -/
theorem findMin_eq (tree : SearchTree α) : tree.findMin = tree.inorder.getLast? := by
  fun_induction findMin tree with
  | case1 => rfl
  | case2 left element => simp
  | case3 above top left element right later =>
    have nonempty : (node left element right).inorder ≠ [] := by simp
    have whole : (node above top (node left element right)).inorder =
        above.inorder ++ [top] ++ (node left element right).inorder := by simp
    rw [later, whole, List.getLast?_append_of_ne_nil _ nonempty]

/-- The last element is taken off. -/
theorem inorder_delete_last (ordered : tree.Ordered) (found : tree.findMin = some least) :
    (tree.delete least).inorder ++ [least] = tree.inorder := by
  induction tree with
  | null => cases found
  | node left element right _ later =>
    cases right with
    | null =>
      obtain rfl : element = least := Option.some.inj found
      by_cases empty : left = null
      · simp [delete, empty]
      · simp [delete, empty]
    | node l e r =>
      have inRight : (node l e r).findMin = some least := found
      have mem : least ∈ (node l e r).inorder :=
        List.mem_of_getLast? ((findMin_eq _).symm.trans inRight)
      have above : element < least := ordered.2.1 least mem
      have rest := later ordered.2.2.2 inRight
      rw [delete, if_neg (not_lt_of_gt above), if_pos above, inorder_node, inorder_node, ← rest]
      simp

/-! ## Deletion -/

/-- Without the element the tree stays as it is. -/
theorem delete_of_notMem (ordered : tree.Ordered) (absent : x ∉ tree.inorder) :
    tree.delete x = tree := by
  induction tree with
  | null => rfl
  | node left element right inLeft inRight =>
    rw [inorder_node, List.mem_append, List.mem_cons, not_or, not_or] at absent
    obtain ⟨notLeft, notHere, notRight⟩ := absent
    rw [delete]
    rcases lt_trichotomy x element with less | same | greater
    · rw [if_pos less, inLeft ordered.2.2.1 notLeft]
    · exact absurd same notHere
    · rw [if_neg (not_lt_of_gt greater), if_pos greater, inRight ordered.2.2.2 notRight]

omit [LinearOrder α] in
/-- A list with its last element in front of the others. -/
theorem cons_eq_append_singleton_iff {list : List α} (fresh : x ∉ list) :
    x :: list = list ++ [x] ↔ list = [] := by
  constructor
  · intro same
    cases list with
    | nil => rfl
    | cons y rest =>
      have first : x = y := (List.cons.inj same).1
      exact absurd (first ▸ List.mem_cons_self) fresh
  · rintro rfl
    rfl

/-- The node that gets another element: the sequence is right exactly when the right child is a
leaf. -/
theorem inorder_replaced (ordered : (node left element right).Ordered)
    (found : right.findMin = some least) :
    (node left least (right.delete least)).inorder = left.inorder ++ right.inorder ↔
      right = node null least null := by
  have last := inorder_delete_last ordered.2.2.2 found
  have fresh : least ∉ (right.delete least).inorder := by
    have nodup := ordered.2.2.2.nodup
    rw [← last] at nodup
    intro mem
    exact List.disjoint_of_nodup_append nodup mem List.mem_cons_self
  rw [inorder_node, List.append_cancel_left_eq, ← inorder_eq_singleton, ← last,
    cons_eq_append_singleton_iff fresh]
  constructor
  · intro empty
    rw [empty, List.nil_append]
  · intro single
    exact List.append_left_eq_self.mp single

/-- At the root the sequence is right exactly when the root does not have two children, or its right
child is a leaf. -/
theorem inorder_delete_root_iff (ordered : (node left x right).Ordered) :
    ((node left x right).delete x).inorder = left.inorder ++ right.inorder ↔
      (left ≠ null → right ≠ null → ∃ least, right = node null least null) := by
  rw [delete, if_neg (lt_irrefl x), if_neg (lt_irrefl x)]
  by_cases two : left ≠ null ∧ right ≠ null
  · obtain ⟨least, found⟩ : ∃ least, right.findMin = some least := by
      rw [findMin_eq, ← Option.ne_none_iff_exists', ne_eq, List.getLast?_eq_none_iff,
        inorder_eq_nil]
      exact two.2
    simp only [if_pos two, found]
    rw [inorder_replaced ordered found]
    constructor
    · intro single _ _
      exact ⟨least, single⟩
    · intro replaceable
      obtain ⟨only, single⟩ := replaceable two.1 two.2
      obtain rfl : only = least := by
        rw [single] at found
        exact Option.some.inj found
      exact single
  · rw [if_neg two]
    have oneChild : (if left = null then right else left).inorder =
        left.inorder ++ right.inorder := by
      by_cases empty : left = null
      · simp [empty]
      · have emptyR : right = null := by
          by_contra nonempty
          exact two ⟨empty, nonempty⟩
        simp [empty, emptyR]
    exact ⟨fun _ nonemptyL nonemptyR => absurd ⟨nonemptyL, nonemptyR⟩ two, fun _ => oneChild⟩

/-- The sequence is right exactly when the element can be replaced. -/
theorem inorder_delete_iff (ordered : tree.Ordered) :
    (tree.delete x).inorder = tree.inorder.filter (· ≠ x) ↔ Replaceable x tree := by
  induction tree with
  | null => exact ⟨fun _ _ _ _ found => (nomatch found), fun _ => rfl⟩
  | node left element right inLeft inRight =>
    have whole := ordered
    obtain ⟨below, above, orderedL, orderedR⟩ := ordered
    rw [Replaceable, find, inorder_node, List.filter_append]
    rcases lt_trichotomy x element with less | rfl | greater
    · have kept : (element :: right.inorder).filter (· ≠ x) = element :: right.inorder := by
        refine List.filter_eq_self.mpr fun a mem => decide_eq_true ?_
        rcases List.mem_cons.mp mem with rfl | mem
        · exact less.ne'
        · exact (less.trans (above a mem)).ne'
      rw [delete, if_pos less, if_pos less, kept, inorder_node, List.append_cancel_right_eq]
      exact inLeft orderedL
    · have keptL : left.inorder.filter (· ≠ x) = left.inorder :=
        List.filter_eq_self.mpr fun a mem => decide_eq_true (below a mem).ne
      have keptR : (x :: right.inorder).filter (· ≠ x) = right.inorder := by
        rw [List.filter_cons_of_neg (by simp)]
        exact List.filter_eq_self.mpr fun a mem => decide_eq_true (above a mem).ne'
      rw [keptL, keptR, inorder_delete_root_iff whole, if_neg (lt_irrefl x), if_neg (lt_irrefl x)]
      constructor
      · rintro replaceable l e r ⟨⟩
        exact replaceable
      · intro replaceable
        exact replaceable left x right rfl
    · have kept : left.inorder.filter (· ≠ x) = left.inorder :=
        List.filter_eq_self.mpr fun a mem => decide_eq_true ((below a mem).trans greater).ne
      have kept' : (element :: right.inorder).filter (· ≠ x) =
          element :: right.inorder.filter (· ≠ x) :=
        List.filter_cons_of_pos (decide_eq_true greater.ne)
      rw [delete, if_neg (not_lt_of_gt greater), if_pos greater, if_neg (not_lt_of_gt greater),
        if_pos greater, kept, kept', inorder_node, List.append_cancel_left_eq, List.cons.injEq]
      simp only [true_and]
      exact inRight orderedR

/-- `Delete` on a tree in search order returns one without the element exactly when the node of the
element does not have two children, or its right child is a leaf. -/
theorem delete_iff (x : α) (tree : SearchTree α) (ordered : tree.Ordered) :
    Deleted x tree (tree.delete x) ↔ Replaceable x tree := by
  have erased : tree.inorder.erase x = tree.inorder.filter (· ≠ x) := by
    rw [ordered.nodup.erase_eq_filter]
    exact List.filter_congr fun a _ => Bool.eq_iff_iff.mpr (by simp)
  constructor
  · intro deleted
    exact (inorder_delete_iff ordered).mp (deleted.sequence.trans erased)
  · intro replaceable
    have sequence := (inorder_delete_iff ordered).mpr replaceable
    refine ⟨?_, sequence.trans erased.symm, delete_of_notMem ordered⟩
    rw [ordered_iff, sequence]
    exact (ordered_iff.mp ordered).filter _

/-- A tree in which 4 has two children, and 6 has one. -/
def evenTree : SearchTree Nat :=
  node (node null 2 null) 4 (node null 6 (node null 8 null))

/-- The element 6 is deleted. -/
theorem delete_six : evenTree.Ordered ∧ Deleted 6 evenTree (evenTree.delete 6) := by
  have ordered : evenTree.Ordered := by
    rw [ordered_iff]
    decide
  refine ⟨ordered, (delete_iff 6 evenTree ordered).mpr ?_⟩
  rintro left element right ⟨⟩ nonempty -
  exact absurd rfl nonempty

/-- The element 4 is replaced by the greatest one of the right subtree. -/
theorem delete_four : evenTree.Ordered ∧ (evenTree.delete 4).inorder = [2, 8, 6] ∧
    ¬ Deleted 4 evenTree (evenTree.delete 4) := by
  refine ⟨?_, by decide, ?_⟩
  · rw [ordered_iff]
    decide
  · intro deleted
    have wrong : (evenTree.delete 4).inorder ≠ evenTree.inorder.erase 4 := by decide
    exact wrong deleted.sequence

end SearchTree

end CodeLearning.Bst

import CodeLearning.Avl.Delete
import CodeLearning.Lib.Machine
import Mathlib.Data.Finset.Sort
import Mathlib.Data.Int.ConditionallyCompleteOrder
import Mathlib.Data.Int.SuccPred
import Mathlib.Data.Nat.Fib.Basic

/-!
# Runs of insertions and deletions

A tree that starts as `NULL` and goes through any sequence of `insert_node` and `delete_node` calls
is a sorted set, as long as no call dereferences `NULL`: what it prints in order, what `find`,
`findmin` and `findmax` return depend on the set alone. While every deletion on the way balances,
no call dereferences `NULL` and a search visits a logarithmic number of nodes.
-/

namespace CodeLearning.Avl.AvlTree

/-- `findmax`: the rightmost node, or `NULL` in the empty tree. -/
def findmax : AvlTree → AvlTree
  | null => null
  | node element left null cached => node element left null cached
  | node _ _ (node e l r c) _ => findmax (node e l r c)

/-- The numbers that `preorder_avltree` prints. -/
def preorderAvltree : AvlTree → List Int
  | null => []
  | node element left right _ => element :: left.preorderAvltree ++ right.preorderAvltree

/-- The numbers that `inorder_avltree` prints. -/
def inorderAvltree : AvlTree → List Int
  | null => []
  | node element left right _ => left.inorderAvltree ++ [element] ++ right.inorderAvltree

/-- The numbers that `postorder_avltree` prints. -/
def postorderAvltree : AvlTree → List Int
  | null => []
  | node element left right _ => left.postorderAvltree ++ right.postorderAvltree ++ [element]

/-- How many nodes `find` compares with. -/
def visits : AvlTree → Int → Nat
  | null, _ => 0
  | node element left right _, x =>
    if x < element then left.visits x + 1
    else if x > element then right.visits x + 1
    else 1

/-- A call that changes the tree. -/
inductive Call where
  /-- `insert_node`, for which `malloc` succeeds. -/
  | insert (x : Int)
  /-- `delete_node`. -/
  | delete (x : Int)
deriving DecidableEq

/-- The tree after a call; `none` when it dereferences `NULL`. -/
def call (t : AvlTree) : Call → Option AvlTree
  | .insert x => insertNode true t x
  | .delete x => deleteNode t x

/-- The set after a call. -/
def callSet (set : Finset Int) : Call → Finset Int
  | .insert x => insert x set
  | .delete x => set.erase x

/-- The set after the calls, of which the first one finds it empty. -/
def contents (calls : List Call) : Finset Int := calls.foldl callSet ∅

/-- Each deletion of the run meets no missing grandchild and balances. -/
def Regular : AvlTree → List Call → Prop
  | _, [] => True
  | t, .insert x :: calls => ∀ t', insertNode true t x = some t' → Regular t' calls
  | t, .delete x :: calls =>
    t.stuck x = false ∧ t.staysBalanced x = true ∧
      ∀ t', deleteNode t x = some t' → Regular t' calls

/-! ## What the functions that only read return -/

section Reading

variable {t t' : AvlTree} {x : Int} {set : Finset Int} {calls : List Call}

/-- What is printed in order is the in-order sequence. -/
theorem inorderAvltree_eq (t : AvlTree) : t.inorderAvltree = t.inorder := by
  induction t with
  | null => rfl
  | node element left right cached leftPart rightPart =>
    rw [inorderAvltree, inorder, leftPart, rightPart, List.append_assoc, List.singleton_append]

/-- `find` returns a node with the element, if the tree has it. -/
theorem find_element (ordered : t.Ordered) (x : Int) :
    (t.find x).element? = if x ∈ t.inorder then some x else none := by
  split
  · rename_i present
    induction t with
    | null => cases present
    | node element left right cached leftPart rightPart =>
      obtain ⟨orderedL, orderedR, below, above⟩ := ordered
      rw [inorder, List.mem_append, List.mem_cons] at present
      rcases lt_trichotomy x element with before | rfl | after
      · have inLeft : x ∈ left.inorder := by
          rcases present with inLeft | rfl | inRight
          · exact inLeft
          · exact absurd before (lt_irrefl x)
          · exact absurd (above x inRight) (not_lt.mpr (le_of_lt before))
        rw [find, if_pos before]
        exact leftPart orderedL inLeft
      · rw [find, if_neg (lt_irrefl x), if_neg (lt_irrefl x)]
        rfl
      · have inRight : x ∈ right.inorder := by
          rcases present with inLeft | rfl | inRight
          · exact absurd (below x inLeft) (not_lt.mpr (le_of_lt after))
          · exact absurd after (lt_irrefl x)
          · exact inRight
        rw [find, if_neg (not_lt.mpr (le_of_lt after)), if_pos after]
        exact rightPart orderedR inRight
  · rename_i absent
    rw [(find_eq_null ordered x).mpr absent]
    rfl

/-- `findmin` returns the first node. -/
theorem findmin_head (t : AvlTree) : t.findmin.element? = t.inorder.head? := by
  by_cases empty : t = null
  · rw [empty]
    rfl
  · obtain ⟨least, rest, found, sequence⟩ := findmin_element empty
    rw [found, sequence]
    rfl

/-- `findmax` returns the last node. -/
theorem findmax_last (t : AvlTree) : t.findmax.element? = t.inorder.getLast? := by
  induction t using findmax.induct with
  | case1 => rfl
  | case2 element left cached =>
    rw [findmax, inorder, inorder, List.getLast?_append]
    rfl
  | case3 element left e l r c cached deeper =>
    have some_ : (node e l r c).inorder ≠ [] := by simp [inorder]
    obtain ⟨last, isLast⟩ := Option.ne_none_iff_exists'.mp (mt List.getLast?_eq_none_iff.mp some_)
    rw [findmax, deeper]
    show _ = (left.inorder ++ element :: (node e l r c).inorder).getLast?
    rw [List.getLast?_append, List.getLast?_cons, isLast]
    rfl

end Reading

/-! ## Every run is a run of a set -/

section Sets

variable {t t' : AvlTree} {x : Int} {set : Finset Int} {calls : List Call} {c : Call}

/-- The tree holds the set in search order. -/
structure Holds (t : AvlTree) (set : Finset Int) : Prop where
  /-- Search order. -/
  ordered : t.Ordered
  /-- The elements. -/
  elements : ∀ x, x ∈ t.inorder ↔ x ∈ set

/-- A call that does not dereference `NULL` does to the set what it is for. -/
theorem Holds.call (holds : Holds t set) (called : t.call c = some t') :
    Holds t' (callSet set c) := by
  have sorted := (ordered_iff_sorted t).mp holds.ordered
  cases c with
  | insert x =>
    have sequence := insertNode_inorder holds.ordered called
    refine ⟨?_, fun a => ?_⟩
    · rw [ordered_iff_sorted, sequence]
      exact insertSorted_sorted x sorted
    · rw [sequence, mem_insertSorted, holds.elements, callSet, Finset.mem_insert]
  | delete x =>
    have sequence := deleteNode_inorder holds.ordered called
    refine ⟨?_, fun a => ?_⟩
    · rw [ordered_iff_sorted, sequence]
      exact sorted.sublist List.erase_sublist
    · have distinct : t.inorder.Nodup := sorted.imp ne_of_lt
      rw [sequence, distinct.mem_erase_iff, holds.elements, callSet, Finset.mem_erase]

/-- The calls of a run, one after the other. -/
theorem Holds.run (holds : Holds t set) (ran : Machine.run AvlTree.call t calls = some t') :
    Holds t' (calls.foldl callSet set) := by
  induction calls generalizing t set with
  | nil =>
    cases ran
    exact holds
  | cons c calls rest =>
    obtain ⟨u, called, ran⟩ := Machine.run_cons ran
    exact rest (holds.call called) ran

/-- A tree that holds a set has the elements of the set in order. -/
theorem Holds.inorder_eq (holds : Holds t set) : t.inorder = set.sort (· ≤ ·) := by
  have sorted := (ordered_iff_sorted t).mp holds.ordered
  have distinct : t.inorder.Nodup := sorted.imp ne_of_lt
  have same : t.inorder.Perm (set.sort (· ≤ ·)) := by
    rw [List.perm_ext_iff_of_nodup distinct (set.sort_nodup (· ≤ ·))]
    intro a
    rw [holds.elements, Finset.mem_sort]
  exact same.eq_of_pairwise' (sorted.imp le_of_lt) (set.pairwise_sort (· ≤ ·))

/-- Everything that can be read from the tree is read from the set. -/
structure Reads (t : AvlTree) (set : Finset Int) : Prop where
  /-- The search order. -/
  ordered : t.Ordered
  /-- The elements are printed in their order. -/
  printed : t.inorderAvltree = set.sort (· ≤ ·)
  /-- `find` finds the elements of the set. -/
  find : ∀ x, (t.find x).element? = if x ∈ set then some x else none
  /-- `findmin` finds the first element. -/
  findmin : t.findmin.element? = (set.sort (· ≤ ·)).head?
  /-- `findmax` finds the last element. -/
  findmax : t.findmax.element? = (set.sort (· ≤ ·)).getLast?

/-- After every run of insertions and deletions that does not dereference `NULL`, balanced or not,
the tree is read as the set of what was inserted and not deleted since. -/
theorem run_reads_set (ran : Machine.run call null calls = some t) : Reads t (contents calls) := by
  have empty : Holds null ∅ := ⟨trivial, fun x => by simp [inorder]⟩
  have holds := empty.run ran
  refine ⟨holds.ordered, ?_, ?_, ?_, ?_⟩
  · rw [inorderAvltree_eq]
    exact holds.inorder_eq
  · intro x
    rw [find_element holds.ordered]
    simp only [holds.elements]
    rfl
  · rw [findmin_head]
    exact congrArg _ holds.inorder_eq
  · rw [findmax_last]
    exact congrArg _ holds.inorder_eq

/-- Three insertions and the deletion of the root. -/
def smallRun : List Call := [.insert 2, .insert 1, .insert 3, .delete 2]

/-- That run leaves two elements. -/
theorem run_reads_set_small : ∃ t, Machine.run call null smallRun = some t ∧
    Reads t (contents smallRun) ∧ t.inorderAvltree = [1, 3] := by
  have ends : (Machine.run call null smallRun).map inorderAvltree = some [1, 3] := by decide
  obtain ⟨t, ran, printed⟩ := Option.map_eq_some_iff.mp ends
  exact ⟨t, ran, run_reads_set ran, printed⟩

end Sets

/-! ## What is printed determines the tree -/

section Printing

variable {t u : AvlTree} {element : Int} {low high low' high' : List Int}

/-- Numbers below an element followed by numbers above it are told apart by the element. -/
theorem split_unique (same : low ++ high = low' ++ high')
    (below : ∀ a ∈ low, a < element) (above : ∀ a ∈ high, element < a)
    (below' : ∀ a ∈ low', a < element) (above' : ∀ a ∈ high', element < a) :
    low = low' ∧ high = high' := by
  have keep : ∀ {low high : List Int}, (∀ a ∈ low, a < element) → (∀ a ∈ high, element < a) →
      (low ++ high).filter (· < element) = low := by
    intro low high below above
    have all : low.filter (· < element) = low :=
      List.filter_eq_self.mpr fun a mem => decide_eq_true (below a mem)
    have none_ : high.filter (· < element) = [] :=
      List.filter_eq_nil_iff.mpr fun a mem => by simpa using le_of_lt (above a mem)
    rw [List.filter_append, all, none_, List.append_nil]
  have lows := congrArg (List.filter (· < element)) same
  rw [keep below above, keep below' above'] at lows
  subst lows
  exact ⟨rfl, List.append_cancel_left same⟩

/-- What is printed in pre-order are the elements. -/
theorem mem_preorder (t : AvlTree) (a : Int) : a ∈ t.preorderAvltree ↔ a ∈ t.inorder := by
  induction t with
  | null => rfl
  | node element left right cached leftPart rightPart =>
    simp only [preorderAvltree, inorder, List.cons_append, List.mem_cons, List.mem_append,
      leftPart, rightPart]
    tauto

/-- What is printed in post-order are the elements. -/
theorem mem_postorder (t : AvlTree) (a : Int) : a ∈ t.postorderAvltree ↔ a ∈ t.inorder := by
  induction t with
  | null => rfl
  | node element left right cached leftPart rightPart =>
    simp only [postorderAvltree, inorder, List.append_assoc, List.mem_append, List.mem_cons,
      leftPart, rightPart]
    tauto

/-- Two nodes with equal subtrees and exact heights are equal. -/
theorem node_congr {left right left' right' : AvlTree} {cached cached' : Int}
    (exact : (node element left right cached).HeightsExact)
    (exact' : (node element left' right' cached').HeightsExact) (sameL : left = left')
    (sameR : right = right') :
    node element left right cached = node element left' right' cached' := by
  subst sameL sameR
  rw [exact.2.2, exact'.2.2]

/-- Search trees with exact heights that print the same in pre-order are the same. -/
theorem eq_of_preorder (ordered : t.Ordered) (exact : t.HeightsExact) (ordered' : u.Ordered)
    (exact' : u.HeightsExact) (same : t.preorderAvltree = u.preorderAvltree) : t = u := by
  induction t generalizing u with
  | null =>
    cases u with
    | null => rfl
    | node => cases same
  | node element left right cached leftPart rightPart =>
    cases u with
    | null => cases same
    | node element' left' right' cached' =>
      obtain ⟨rfl, rest⟩ := List.cons.inj same
      obtain ⟨orderedL, orderedR, below, above⟩ := ordered
      obtain ⟨orderedL', orderedR', below', above'⟩ := ordered'
      obtain ⟨sameL, sameR⟩ := split_unique rest
        (fun a mem => below a ((mem_preorder left a).mp mem))
        (fun a mem => above a ((mem_preorder right a).mp mem))
        (fun a mem => below' a ((mem_preorder left' a).mp mem))
        (fun a mem => above' a ((mem_preorder right' a).mp mem))
      exact node_congr exact exact' (leftPart orderedL exact.1 orderedL' exact'.1 sameL)
        (rightPart orderedR exact.2.1 orderedR' exact'.2.1 sameR)

/-- Search trees with exact heights that print the same in post-order are the same. -/
theorem eq_of_postorder (ordered : t.Ordered) (exact : t.HeightsExact) (ordered' : u.Ordered)
    (exact' : u.HeightsExact) (same : t.postorderAvltree = u.postorderAvltree) : t = u := by
  induction t generalizing u with
  | null =>
    cases u with
    | null => rfl
    | node => simp [postorderAvltree] at same
  | node element left right cached leftPart rightPart =>
    cases u with
    | null => simp [postorderAvltree] at same
    | node element' left' right' cached' =>
      obtain ⟨rest, last⟩ := List.append_inj' same rfl
      obtain rfl : element = element' := by simpa using last
      obtain ⟨orderedL, orderedR, below, above⟩ := ordered
      obtain ⟨orderedL', orderedR', below', above'⟩ := ordered'
      obtain ⟨sameL, sameR⟩ := split_unique rest
        (fun a mem => below a ((mem_postorder left a).mp mem))
        (fun a mem => above a ((mem_postorder right a).mp mem))
        (fun a mem => below' a ((mem_postorder left' a).mp mem))
        (fun a mem => above' a ((mem_postorder right' a).mp mem))
      exact node_congr exact exact' (leftPart orderedL exact.1 orderedL' exact'.1 sameL)
        (rightPart orderedR exact.2.1 orderedR' exact'.2.1 sameR)

/-- An AVL tree is determined, with its cached heights, by what it prints in pre-order, and by what
it prints in post-order. -/
theorem printed_determines (avl : t.IsAvl) (avl' : u.IsAvl) :
    (t.preorderAvltree = u.preorderAvltree ↔ t = u) ∧
      (t.postorderAvltree = u.postorderAvltree ↔ t = u) :=
  ⟨⟨eq_of_preorder avl.ordered avl.exact avl'.ordered avl'.exact, congrArg preorderAvltree⟩,
    ⟨eq_of_postorder avl.ordered avl.exact avl'.ordered avl'.exact, congrArg postorderAvltree⟩⟩

/-- The other tree of the elements 1 to 4 whose root has two children. -/
def otherRoot : AvlTree :=
  node 3 (node 2 (node 1 null null 1) null 2) (node 4 null null 1) 3

/-- The two trees of the elements 1 to 4 print the same in order, and differently in the other
orders. -/
theorem printed_determines_four : otherRoot.inorderAvltree = rightLeaning.inorderAvltree ∧
    otherRoot.preorderAvltree ≠ rightLeaning.preorderAvltree ∧
    otherRoot.postorderAvltree ≠ rightLeaning.postorderAvltree := by
  have avl : otherRoot.IsAvl := by
    constructor
    · simp [otherRoot, Ordered, inorder]
    · simp [otherRoot, HeightsExact]
    · simp [otherRoot, Balanced]
  have differ : otherRoot ≠ rightLeaning := by decide
  obtain ⟨pre, post⟩ := printed_determines avl rightLeaning_avl
  exact ⟨by decide, mt pre.mp differ, mt post.mp differ⟩

end Printing

/-! ## Searches are short -/

section Height

variable {t : AvlTree} {calls : List Call}

/-- A search goes down one level with each node. -/
theorem visits_le_trueHeight (t : AvlTree) (x : Int) : (t.visits x : Int) ≤ t.trueHeight := by
  induction t with
  | null => simp [visits]
  | node element left right cached leftPart rightPart =>
    have highL := le_max_left left.trueHeight right.trueHeight
    have highR := le_max_right left.trueHeight right.trueHeight
    have nonnegative := trueHeight_nonneg left
    rw [visits, trueHeight_node]
    split
    · push_cast
      omega
    · split
      · push_cast
        omega
      · push_cast
        omega

/-- The higher subtree and the next lower height need a Fibonacci number of nodes each. -/
theorem fib_add_le {high low : Nat} {n m : Nat} (lean : high ≤ low + 1)
    (many : Nat.fib (high + 2) ≤ n + 1) (few : Nat.fib (low + 2) ≤ m + 1) :
    Nat.fib (high + 1 + 2) ≤ n + (m + 1) + 1 := by
  have lower : Nat.fib (high + 1) ≤ Nat.fib (low + 2) := Nat.fib_mono (by omega)
  have split : Nat.fib (high + 1 + 2) = Nat.fib (high + 1) + Nat.fib (high + 2) := Nat.fib_add_two
  omega

/-- A balanced tree of some height has a Fibonacci number of nodes at least. -/
theorem Balanced.fib_le (balanced : t.Balanced) :
    Nat.fib (t.trueHeight.toNat + 2) ≤ t.inorder.length + 1 := by
  induction t with
  | null => simp [inorder]
  | node element left right cached leftPart rightPart =>
    obtain ⟨balancedL, balancedR, lean, lean'⟩ := balanced
    have many := leftPart balancedL
    have few := rightPart balancedR
    have nonnegL := trueHeight_nonneg left
    have nonnegR := trueHeight_nonneg right
    rw [trueHeight_node, inorder, List.length_append, List.length_cons]
    rcases le_total right.trueHeight left.trueHeight with higher | higher
    · rw [max_eq_left higher, Int.toNat_add nonnegL Int.one_nonneg]
      exact fib_add_le (by omega) many few
    · rw [max_eq_right higher, Int.toNat_add nonnegR Int.one_nonneg]
      have bound := fib_add_le (by omega) few many
      have same : left.inorder.length + (right.inorder.length + 1) + 1 =
          right.inorder.length + (left.inorder.length + 1) + 1 := by omega
      rw [same]
      exact bound

/-- A regular run does not dereference `NULL` and ends with an AVL tree. -/
theorem Regular.run (avl : t.IsAvl) (regular : Regular t calls) :
    ∃ t', Machine.run call t calls = some t' ∧ t'.IsAvl := by
  induction calls generalizing t with
  | nil => exact ⟨t, rfl, avl⟩
  | cons c calls rest =>
    cases c with
    | insert x =>
      obtain ⟨u, inserted, avl', -⟩ := insertNode_avl avl x
      obtain ⟨t', ran, final⟩ := rest avl' (regular u inserted)
      refine ⟨t', ?_, final⟩
      rw [Machine.run, AvlTree.call, inserted]
      exact ran
    | delete x =>
      obtain ⟨fine, balances, later⟩ := regular
      obtain ⟨u, deleted, outcome⟩ := (deleteNode_spec avl x).2 fine
      have sorted : u.Ordered := by
        rw [ordered_iff_sorted, deleteNode_inorder avl.ordered deleted]
        exact ((ordered_iff_sorted t).mp avl.ordered).sublist List.erase_sublist
      have avl' : u.IsAvl := ⟨sorted, outcome.exact, outcome.balanced.mpr balances⟩
      obtain ⟨t', ran, final⟩ := rest avl' (later u deleted)
      refine ⟨t', ?_, final⟩
      rw [Machine.run, AvlTree.call, deleted]
      exact ran

/-- While every deletion meets no missing grandchild and balances, in particular while there are
only insertions, no call dereferences `NULL` and a search among `n` elements visits `k` nodes only
if the Fibonacci number of `k + 2` is at most `n + 1`. -/
theorem regular_run_search_short (regular : Regular null calls) :
    ∃ t, Machine.run call null calls = some t ∧ t.IsAvl ∧
      ∀ x, Nat.fib (t.visits x + 2) ≤ (contents calls).card + 1 := by
  obtain ⟨t, ran, avl⟩ := regular.run null_avl
  have empty : Holds null ∅ := ⟨trivial, fun x => by simp [inorder]⟩
  have holds := empty.run ran
  refine ⟨t, ran, avl, fun x => ?_⟩
  have deep := visits_le_trueHeight t x
  have size : t.inorder.length = (contents calls).card := by
    rw [holds.inorder_eq, Finset.length_sort]
    rfl
  calc Nat.fib (t.visits x + 2) ≤ Nat.fib (t.trueHeight.toNat + 2) := Nat.fib_mono (by omega)
    _ ≤ t.inorder.length + 1 := avl.balanced.fib_le
    _ = (contents calls).card + 1 := by rw [size]

/-- The run that deletes the root of three elements is regular. -/
theorem regular_run_search_short_small : Regular null smallRun ∧
    ∃ t, Machine.run call null smallRun = some t ∧ t.IsAvl ∧
      ∀ x, Nat.fib (t.visits x + 2) ≤ (contents smallRun).card + 1 := by
  have regular : Regular null smallRun := by
    intro t₁ first t₂ second t₃ third
    cases first
    cases second
    cases third
    exact ⟨by decide, by decide, fun _ _ => trivial⟩
  exact ⟨regular, regular_run_search_short regular⟩

end Height

end CodeLearning.Avl.AvlTree

import Mathlib.Data.List.Sort
import Mathlib.Tactic.Common
import Mathlib.Order.Lattice
import Mathlib.Data.Int.Order.Basic

/-!
# The AVL tree of `avltree.c`

Nodes are values of a tree type: every subtree of the program is reached through exactly
one pointer, so an update through a pointer is a new value at that place. A rotation reads
fields of a child or a grandchild; `none` is the run that dereferences `NULL` there.
Elements and cached heights are integers. The messages that the operations print are left
out, since no operation reads them back.
-/

namespace CodeLearning.Avl

/-- A pointer to `struct avlnode`: `NULL`, or a node with its fields. -/
inductive AvlTree where
  /-- The `NULL` pointer. -/
  | null
  /-- A node; `height` is the cached field, not the true height. -/
  | node (element : Int) (left right : AvlTree) (height : Int)
deriving DecidableEq, Repr

namespace AvlTree

/-- `height`: the cached height, zero for `NULL`. -/
def height : AvlTree → Int
  | null => 0
  | node _ _ _ cached => cached

/-- `NULL` has height zero. -/
@[simp] theorem height_null : null.height = 0 := rfl

/-- The height of a node is its cached field. -/
@[simp] theorem height_node (element : Int) (left right : AvlTree) (cached : Int) :
    (node element left right cached).height = cached := rfl

/-- The assignment `t->height = max(height(t->left), height(t->right)) + 1`. -/
def updateHeight : AvlTree → Option AvlTree
  | null => none
  | node element left right _ =>
    some (node element left right (max left.height right.height + 1))

/-- `findmin`: the leftmost node, or `NULL` in the empty tree. -/
def findmin : AvlTree → AvlTree
  | null => null
  | node element null right cached => node element null right cached
  | node _ (node e l r c) _ _ => findmin (node e l r c)

/-- `left_left_rotate`: the left child `k1` becomes the root. -/
def leftLeftRotate : AvlTree → Option AvlTree
  | node element2 (node element1 left1 right1 _) right2 _ =>
    let k2 := node element2 right1 right2 (max right1.height right2.height + 1)
    some (node element1 left1 k2 (max left1.height k2.height + 1))
  | _ => none

/-- `right_right_rotate`: the right child `k1` becomes the root. -/
def rightRightRotate : AvlTree → Option AvlTree
  | node element2 left2 (node element1 left1 right1 _) _ =>
    let k2 := node element2 left2 left1 (max left2.height left1.height + 1)
    some (node element1 k2 right1 (max k2.height right1.height + 1))
  | _ => none

/-- `left_right_rotate`: rotate the left child, then the root. -/
def leftRightRotate : AvlTree → Option AvlTree
  | null => none
  | node element left right cached => do
    let left ← left.rightRightRotate
    leftLeftRotate (node element left right cached)

/-- `right_left_rotate`: rotate the right child, then the root. -/
def rightLeftRotate : AvlTree → Option AvlTree
  | null => none
  | node element left right cached => do
    let right ← right.leftLeftRotate
    rightRightRotate (node element left right cached)

/-- `p->element`. -/
def element? : AvlTree → Option Int
  | null => none
  | node element _ _ _ => some element

/-- The rebalancing of `insert_node` after an insertion on the left: the rotation is chosen
by comparing `x` with the element of the left child. -/
def insertRebalanceLeft (x : Int) : AvlTree → Option AvlTree
  | null => none
  | node element left right cached =>
    if left.height - right.height = 2 then do
      let child ← left.element?
      if x < child then (node element left right cached).leftLeftRotate
      else (node element left right cached).leftRightRotate
    else some (node element left right cached)

/-- The rebalancing of `insert_node` after an insertion on the right. -/
def insertRebalanceRight (x : Int) : AvlTree → Option AvlTree
  | null => none
  | node element left right cached =>
    if right.height - left.height = 2 then do
      let child ← right.element?
      if x > child then (node element left right cached).rightRightRotate
      else (node element left right cached).rightLeftRotate
    else some (node element left right cached)

/-- `insert_node`. The flag tells whether `malloc` succeeds; when it fails the last line
assigns through `NULL`. -/
def insertNode (malloc : Bool) (t : AvlTree) (x : Int) : Option AvlTree :=
  match t with
  | null => if malloc then updateHeight (node x null null 0) else updateHeight null
  | node element left right cached =>
    if x < element then do
      let left ← insertNode malloc left x
      let t ← insertRebalanceLeft x (node element left right cached)
      t.updateHeight
    else if x > element then do
      let right ← insertNode malloc right x
      let t ← insertRebalanceRight x (node element left right cached)
      t.updateHeight
    else updateHeight (node element left right cached)

/-- `find`: the node holding `x`, or `NULL`. -/
def find : AvlTree → Int → AvlTree
  | null, _ => null
  | node element left right cached, x =>
    if x < element then left.find x
    else if x > element then right.find x
    else node element left right cached

/-- The rebalancing of `delete_node` after a deletion on the left. The comparison is with the
element of the right child, as in the source. -/
def deleteRebalanceLeft (x : Int) : AvlTree → Option AvlTree
  | null => none
  | node element left right cached =>
    if right.height - left.height = 2 then do
      let child ← right.element?
      if x < child then (node element left right cached).rightLeftRotate
      else (node element left right cached).rightRightRotate
    else some (node element left right cached)

/-- The rebalancing of `delete_node` after a deletion on the right. -/
def deleteRebalanceRight (x : Int) : AvlTree → Option AvlTree
  | null => none
  | node element left right cached =>
    if left.height - right.height = 2 then do
      let child ← left.element?
      if x < child then (node element left right cached).leftLeftRotate
      else (node element left right cached).leftRightRotate
    else some (node element left right cached)

/-- `delete_node`. -/
def deleteNode (t : AvlTree) (x : Int) : Option AvlTree :=
  match t with
  | null => some null
  | node element left right cached =>
    if (node element left right cached).find x = null then
      some (node element left right cached)
    else if x < element then do
      let left ← deleteNode left x
      let t ← deleteRebalanceLeft x (node element left right cached)
      t.updateHeight
    else if x > element then do
      let right ← deleteNode right x
      let t ← deleteRebalanceRight x (node element left right cached)
      t.updateHeight
    else if left ≠ null ∧ right ≠ null then do
      let least ← right.findmin.element?
      let right ← deleteNode right least
      updateHeight (node least left right cached)
    else
      let t := if left ≠ null then left else right
      if t = null then some null else t.updateHeight

/-! ## What the tree is for -/

/-- The in-order sequence of the elements. -/
def inorder : AvlTree → List Int
  | null => []
  | node element left right _ => left.inorder ++ element :: right.inorder

/-- The true height, independent of every cached field. -/
def trueHeight : AvlTree → Int
  | null => 0
  | node _ left right _ => max left.trueHeight right.trueHeight + 1

/-- The empty tree has true height zero. -/
@[simp] theorem trueHeight_null : null.trueHeight = 0 := rfl

/-- The true height of a node is one more than that of its higher subtree. -/
@[simp] theorem trueHeight_node (element : Int) (left right : AvlTree) (cached : Int) :
    (node element left right cached).trueHeight =
      max left.trueHeight right.trueHeight + 1 := rfl

/-- Strict search order: smaller elements on the left of every node, larger on the right. -/
def Ordered : AvlTree → Prop
  | null => True
  | node element left right _ =>
    left.Ordered ∧ right.Ordered ∧ (∀ a ∈ left.inorder, a < element) ∧
      ∀ a ∈ right.inorder, element < a

/-- Every cached height is the true height of its node. -/
def HeightsExact : AvlTree → Prop
  | null => True
  | node _ left right cached =>
    left.HeightsExact ∧ right.HeightsExact ∧
      cached = max left.trueHeight right.trueHeight + 1

/-- Sibling heights differ by at most one at every node. -/
def Balanced : AvlTree → Prop
  | null => True
  | node _ left right _ =>
    left.Balanced ∧ right.Balanced ∧
      left.trueHeight - right.trueHeight ≤ 1 ∧ right.trueHeight - left.trueHeight ≤ 1

/-- An AVL tree: search order, exact cached heights and balance. -/
structure IsAvl (t : AvlTree) : Prop where
  /-- Search order. -/
  ordered : t.Ordered
  /-- Cached heights are exact. -/
  exact : t.HeightsExact
  /-- No node leans by more than one. -/
  balanced : t.Balanced

end AvlTree

end CodeLearning.Avl

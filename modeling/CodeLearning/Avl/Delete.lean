import CodeLearning.Avl.Insert

/-!
# Deletion from the AVL tree

`delete_node` chooses its rotation by comparing the deleted element with the child on the
other side. That comparison has one possible outcome, so every rebalancing after a deletion
is a double rotation, whatever the balance of the sibling; and the node whose element is
replaced by the minimum of its right subtree is not rebalanced at all. This module says
exactly for which trees and elements the deletion dereferences `NULL` (`stuck`), lowers the
tree (`lowers`) and leaves it balanced (`staysBalanced`), each decided on the tree before
the deletion. The in-order sequence is right whenever the deletion completes.
-/

namespace CodeLearning.Avl.AvlTree

/-! ## What a deletion meets, read off the tree before it -/

/-- The tree is the single node `x`. -/
def isLeaf : AvlTree → Int → Bool
  | node element null null _, x => element = x
  | _, _ => false

/-- The left subtree, `NULL` below `NULL`. -/
def leftOf : AvlTree → AvlTree
  | null => null
  | node _ left _ _ => left

/-- The right subtree, `NULL` below `NULL`. -/
def rightOf : AvlTree → AvlTree
  | null => null
  | node _ _ right _ => right

/-- The deletion of `x` reaches a rotation whose grandchild is missing: the unlinked node is
a leaf, and its sibling has a child on the far side but none on the near side. With two
children at `x` the unlinked node is the minimum of the right subtree. -/
def stuck : AvlTree → Int → Bool
  | null, _ => false
  | node element left right _, x =>
    if x < element then
      (left.isLeaf x && right.leftOf = null && right.rightOf ≠ null) || left.stuck x
    else if element < x then
      (right.isLeaf x && left.rightOf = null && left.leftOf ≠ null) || right.stuck x
    else if left ≠ null ∧ right ≠ null then
      match right.findmin.element? with
      | some least => right.stuck least
      | none => false
    else false

/-- The deletion of `x` lowers the tree by one. A double rotation gives the lost level back
only when the sibling leans to the near side. -/
def lowers : AvlTree → Int → Bool
  | null, _ => false
  | node element left right _, x =>
    if x < element then
      left.lowers x &&
        if right.height = left.height + 1 then right.rightOf.height < right.leftOf.height
        else right.height < left.height
    else if element < x then
      right.lowers x &&
        if left.height = right.height + 1 then left.leftOf.height < left.rightOf.height
        else left.height < right.height
    else if left ≠ null ∧ right ≠ null then
      match right.findmin.element? with
      | some least => right.lowers least && left.height < right.height
      | none => false
    else true

/-- A double rotation balances a node whose near side fell behind: the sibling leans to the
near side, or it is even and its near child is at full height on the far side. Arguments are
the near and the far subtree of the sibling and the far subtree of the near one. -/
def nearSideCarries (near far deep : AvlTree) : Bool :=
  far.height < near.height || (near.height = far.height && deep.height + 1 = far.height)

/-- Every rebalancing of the deletion of `x` balances, and the node whose element is replaced
by a minimum does not come to lean by two. -/
def staysBalanced : AvlTree → Int → Bool
  | null, _ => true
  | node element left right _, x =>
    if x < element then
      left.staysBalanced x &&
        if left.lowers x && right.height = left.height + 1 then
          nearSideCarries right.leftOf right.rightOf right.leftOf.rightOf
        else true
    else if element < x then
      right.staysBalanced x &&
        if right.lowers x && left.height = right.height + 1 then
          nearSideCarries left.rightOf left.leftOf left.rightOf.leftOf
        else true
    else if left ≠ null ∧ right ≠ null then
      match right.findmin.element? with
      | some least =>
        right.staysBalanced least && (!right.lowers least || left.height ≤ right.height)
      | none => true
    else true

/-! ## Searching -/

/-- In a search tree `find` returns `NULL` exactly for an absent element. -/
theorem find_eq_null {t : AvlTree} (ordered : t.Ordered) (x : Int) :
    t.find x = null ↔ x ∉ t.inorder := by
  induction t with
  | null => simp [find, inorder]
  | node element left right cached leftPart rightPart =>
    obtain ⟨orderedL, orderedR, below, above⟩ := ordered
    simp only [find, inorder, List.mem_append, List.mem_cons, not_or]
    rcases lt_trichotomy x element with before | rfl | after
    · rw [if_pos before, leftPart orderedL]
      refine ⟨fun absent => ⟨absent, ne_of_lt before, fun inRight => ?_⟩, And.left⟩
      exact absurd (above x inRight) (by omega)
    · simp
    · rw [if_neg (by omega), if_pos after, rightPart orderedR]
      refine ⟨fun absent => ⟨fun inLeft => ?_, ne_of_gt after, absent⟩, fun h => h.2.2⟩
      exact absurd (below x inLeft) (by omega)

/-- The minimum of a non-empty tree is the head of its sequence. -/
theorem findmin_element {t : AvlTree} (present : t ≠ null) :
    ∃ least rest, t.findmin.element? = some least ∧ t.inorder = least :: rest := by
  induction t using findmin.induct with
  | case1 => exact absurd rfl present
  | case2 element right cached => exact ⟨element, right.inorder, rfl, rfl⟩
  | case3 top element l r c right cached deeper =>
    obtain ⟨least, rest, found, sequence⟩ := deeper (by simp)
    refine ⟨least, rest ++ top :: right.inorder, ?_, ?_⟩
    · rw [findmin]
      exact found
    · rw [inorder, sequence]
      rfl

/-! ## The sequence after deletion -/

/-- Rebalancing after a deletion on the left keeps the in-order sequence. -/
theorem deleteRebalanceLeft_inorder {x : Int} {t t' : AvlTree}
    (rebalanced : deleteRebalanceLeft x t = some t') : t'.inorder = t.inorder := by
  cases t with
  | null => contradiction
  | node element left right cached =>
    simp only [deleteRebalanceLeft] at rebalanced
    split at rebalanced
    · obtain ⟨child, -, rotated⟩ := Option.bind_eq_some_iff.mp rebalanced
      split at rotated
      · exact rightLeftRotate_inorder rotated
      · exact rightRightRotate_inorder rotated
    · cases rebalanced
      rfl

/-- Rebalancing after a deletion on the right keeps the in-order sequence. -/
theorem deleteRebalanceRight_inorder {x : Int} {t t' : AvlTree}
    (rebalanced : deleteRebalanceRight x t = some t') : t'.inorder = t.inorder := by
  cases t with
  | null => contradiction
  | node element left right cached =>
    simp only [deleteRebalanceRight] at rebalanced
    split at rebalanced
    · obtain ⟨child, -, rotated⟩ := Option.bind_eq_some_iff.mp rebalanced
      split at rotated
      · exact leftLeftRotate_inorder rotated
      · exact leftRightRotate_inorder rotated
    · cases rebalanced
      rfl

/-- A deletion that completes on a search tree removes exactly its element from the
sequence. -/
theorem deleteNode_inorder {t t' : AvlTree} {x : Int} (ordered : t.Ordered)
    (deleted : deleteNode t x = some t') : t'.inorder = t.inorder.erase x := by
  induction t generalizing t' x with
  | null =>
    cases deleted
    rfl
  | node element left right cached leftPart rightPart =>
    rw [deleteNode] at deleted
    split at deleted
    · rename_i absent
      cases deleted
      rw [List.erase_of_not_mem ((find_eq_null ordered x).mp absent)]
    · obtain ⟨orderedL, orderedR, below, above⟩ := ordered
      rcases lt_trichotomy x element with before | rfl | after
      · rw [if_pos before] at deleted
        obtain ⟨left', deletedL, rest⟩ := Option.bind_eq_some_iff.mp deleted
        obtain ⟨rebuilt, step, updated⟩ := Option.bind_eq_some_iff.mp rest
        rw [updateHeight_inorder updated, deleteRebalanceLeft_inorder step]
        simp only [inorder, leftPart orderedL deletedL]
        have outside : x ∉ element :: right.inorder := by
          rw [List.mem_cons, not_or]
          exact ⟨ne_of_lt before, fun inRight => absurd (above x inRight) (by omega)⟩
        by_cases inLeft : x ∈ left.inorder
        · rw [List.erase_append_left _ inLeft]
        · rw [List.erase_of_not_mem inLeft, List.erase_of_not_mem (by simp_all)]
      · -- the element itself: its place is taken by the minimum of the right subtree
        have notLeft : x ∉ left.inorder := fun inLeft => lt_irrefl x (below x inLeft)
        rw [if_neg (lt_irrefl x), if_neg (lt_irrefl x)] at deleted
        simp only [inorder, List.erase_append_right _ notLeft, List.erase_cons_head]
        split at deleted
        · rename_i both
          obtain ⟨least, found, rest⟩ := Option.bind_eq_some_iff.mp deleted
          obtain ⟨right', deletedR, updated⟩ := Option.bind_eq_some_iff.mp rest
          obtain ⟨least', others, found', sequence⟩ := findmin_element both.2
          obtain rfl : least' = least := by
            rw [found'] at found
            exact Option.some.inj found
          rw [updateHeight_inorder updated]
          simp only [inorder, rightPart orderedR deletedR, sequence, List.erase_cons_head]
        · rename_i some_missing
          have kept : t'.inorder = (if left ≠ null then left else right).inorder := by
            dsimp only at deleted
            generalize (if left ≠ null then left else right) = survivor at deleted ⊢
            split at deleted
            · rename_i empty
              cases deleted
              rw [empty]
            · exact updateHeight_inorder deleted
          rw [kept]
          by_cases emptyLeft : left = null
          · simp [emptyLeft, inorder]
          · have emptyRight : right = null := by
              by_contra present
              exact some_missing ⟨emptyLeft, present⟩
            simp [emptyLeft, emptyRight, inorder]
      · rw [if_neg (by omega), if_pos after] at deleted
        obtain ⟨right', deletedR, rest⟩ := Option.bind_eq_some_iff.mp deleted
        obtain ⟨rebuilt, step, updated⟩ := Option.bind_eq_some_iff.mp rest
        rw [updateHeight_inorder updated, deleteRebalanceRight_inorder step]
        simp only [inorder, rightPart orderedR deletedR]
        have notLeft : x ∉ left.inorder := fun inLeft => absurd (below x inLeft) (by omega)
        have apart : (element == x) = false := by
          simp only [beq_eq_false_iff_ne]
          omega
        rw [List.erase_append_right _ notLeft, List.erase_cons, apart]
        rfl

/-! ## Heights and balance after deletion -/

/-- Outcome of a deletion, against what was read off the tree before it. -/
structure Deleted (t : AvlTree) (x : Int) (t' : AvlTree) : Prop where
  /-- Cached heights are exact again. -/
  exact : t'.HeightsExact
  /-- The true height is the old one, or one less when the deletion lowers the tree. -/
  height : t'.trueHeight = t.trueHeight - if t.lowers x then 1 else 0
  /-- Balance is kept exactly when it was predicted. -/
  balanced : t'.Balanced ↔ t.staysBalanced x = true

/-- The double rotation after a deletion on the left, at a node whose right subtree is two
higher: it dereferences `NULL` when the near grandchild is missing. Otherwise the height
and the balance of the result are those read off the sibling. -/
theorem deleteRebalanceLeft_high (element cached : Int) {x child stored : Int}
    {left near far : AvlTree} (exactL : left.HeightsExact)
    (exactR : (node child near far stored).HeightsExact)
    (balancedR : (node child near far stored).Balanced) (smaller : x < child)
    (high : (node child near far stored).trueHeight = left.trueHeight + 2) :
    (near = null → deleteRebalanceLeft x (node element left (node child near far stored) cached)
      = none) ∧
    (near ≠ null → ∃ t',
      deleteRebalanceLeft x (node element left (node child near far stored) cached) = some t' ∧
      t'.HeightsExact ∧
      t'.trueHeight = left.trueHeight + (if far.height < near.height then 2 else 3) ∧
      (t'.Balanced ↔ left.Balanced ∧ nearSideCarries near far near.rightOf = true)) := by
  have gap : (node child near far stored).height - left.height = 2 := by
    rw [exactL.height_eq, exactR.height_eq]
    omega
  simp only [deleteRebalanceLeft, gap, ↓reduceIte, element?, Option.bind_eq_bind,
    Option.bind_some, smaller]
  obtain ⟨exactN, exactF, -⟩ := exactR
  obtain ⟨balancedN, balancedF, lean, lean'⟩ := balancedR
  cases near with
  | null => exact ⟨fun _ => rfl, fun absent => absurd rfl absent⟩
  | node top low deep kept =>
    refine ⟨fun absent => by simp at absent, fun _ => ⟨_, rfl, ?_⟩⟩
    have sizeN := exactN.height_eq
    have sizeF := exactF.height_eq
    obtain ⟨exactLow, exactDeep, -⟩ := exactN
    obtain ⟨balancedLow, balancedDeep, tilt, tilt'⟩ := balancedN
    have sizeD := exactDeep.height_eq
    simp only [trueHeight_node] at high lean lean' sizeN
    simp only [HeightsExact, Balanced, trueHeight_node, height_node, exactLow.height_eq,
      exactDeep.height_eq, exactF.height_eq, exactL.height_eq, exactLow, exactDeep, exactF,
      exactL, balancedLow, balancedDeep, balancedF, true_and, and_true, nearSideCarries, rightOf,
      Bool.or_eq_true, Bool.and_eq_true, decide_eq_true_eq]
    rw [height_node] at sizeN
    refine ⟨by split <;> omega, ?_, ?_⟩
    · rintro ⟨⟨balancedL, -⟩, inner, -⟩
      exact ⟨balancedL, by omega⟩
    · rintro ⟨balancedL, carries⟩
      exact ⟨⟨balancedL, by omega⟩, by omega⟩

/-- The double rotation after a deletion on the right. -/
theorem deleteRebalanceRight_high (element cached : Int) {x child stored : Int}
    {far near right : AvlTree} (exactR : right.HeightsExact)
    (exactL : (node child far near stored).HeightsExact)
    (balancedL : (node child far near stored).Balanced) (larger : child < x)
    (high : (node child far near stored).trueHeight = right.trueHeight + 2) :
    (near = null → deleteRebalanceRight x (node element (node child far near stored) right cached)
      = none) ∧
    (near ≠ null → ∃ t',
      deleteRebalanceRight x (node element (node child far near stored) right cached) = some t' ∧
      t'.HeightsExact ∧
      t'.trueHeight = right.trueHeight + (if far.height < near.height then 2 else 3) ∧
      (t'.Balanced ↔ right.Balanced ∧ nearSideCarries near far near.leftOf = true)) := by
  have gap : (node child far near stored).height - right.height = 2 := by
    rw [exactL.height_eq, exactR.height_eq]
    omega
  simp only [deleteRebalanceRight, gap, ↓reduceIte, element?, Option.bind_eq_bind,
    Option.bind_some, not_lt.mpr (le_of_lt larger)]
  obtain ⟨exactF, exactN, -⟩ := exactL
  obtain ⟨balancedF, balancedN, lean, lean'⟩ := balancedL
  cases near with
  | null => exact ⟨fun _ => rfl, fun absent => absurd rfl absent⟩
  | node top deep low kept =>
    refine ⟨fun absent => by simp at absent, fun _ => ⟨_, rfl, ?_⟩⟩
    have sizeN := exactN.height_eq
    have sizeF := exactF.height_eq
    obtain ⟨exactDeep, exactLow, -⟩ := exactN
    obtain ⟨balancedDeep, balancedLow, tilt, tilt'⟩ := balancedN
    have sizeD := exactDeep.height_eq
    simp only [trueHeight_node] at high lean lean' sizeN
    simp only [HeightsExact, Balanced, trueHeight_node, height_node, exactLow.height_eq,
      exactDeep.height_eq, exactF.height_eq, exactR.height_eq, exactLow, exactDeep, exactF,
      exactR, balancedLow, balancedDeep, balancedF, true_and, and_true, nearSideCarries, leftOf,
      Bool.or_eq_true, Bool.and_eq_true, decide_eq_true_eq]
    rw [height_node] at sizeN
    refine ⟨by split <;> omega, ?_, ?_⟩
    · rintro ⟨inner, ⟨balancedR, -⟩, -⟩
      exact ⟨balancedR, by omega⟩
    · rintro ⟨balancedR, carries⟩
      exact ⟨by omega, ⟨balancedR, by omega⟩, by omega⟩

/-- A deletion of an absent element meets nothing. -/
theorem absent_meets_nothing {t : AvlTree} {x : Int} (ordered : t.Ordered)
    (absent : x ∉ t.inorder) :
    t.stuck x = false ∧ t.lowers x = false ∧ t.staysBalanced x = true := by
  induction t with
  | null => exact ⟨rfl, rfl, rfl⟩
  | node element left right cached leftPart rightPart =>
    obtain ⟨orderedL, orderedR, -, -⟩ := ordered
    simp only [inorder, List.mem_append, List.mem_cons, not_or] at absent
    obtain ⟨notLeft, apart, notRight⟩ := absent
    have leaf : ∀ t : AvlTree, x ∉ t.inorder → t.isLeaf x = false := by
      intro t outside
      unfold isLeaf
      split
      · rename_i key _ _
        simp only [inorder, List.nil_append, List.mem_singleton] at outside
        simpa using Ne.symm outside
      · rfl
    obtain ⟨stuckL, lowersL, staysL⟩ := leftPart orderedL notLeft
    obtain ⟨stuckR, lowersR, staysR⟩ := rightPart orderedR notRight
    rcases lt_or_gt_of_ne apart with before | after
    · simp [stuck, lowers, staysBalanced, before, stuckL, lowersL, staysL, leaf left notLeft]
    · have notBefore : ¬ x < element := not_lt.mpr (le_of_lt after)
      simp [stuck, lowers, staysBalanced, notBefore, after, stuckR, lowersR, staysR,
        leaf right notRight]

/-- A leaf read as a tree. -/
theorem isLeaf_iff {t : AvlTree} {x : Int} :
    t.isLeaf x = true ↔ ∃ cached, t = node x null null cached := by
  unfold isLeaf
  split
  · rename_i element cached y
    simp
  · rename_i other
    simp only [Bool.false_eq_true, false_iff, not_exists]
    rintro cached rfl
    exact other x cached rfl

/-- A tree of height one that a deletion lowers is the leaf that is deleted. -/
theorem isLeaf_of_lowers {t : AvlTree} {x : Int} (single : t.trueHeight = 1)
    (low : t.lowers x = true) : t.isLeaf x = true := by
  cases t with
  | null => simp at single
  | node element left right cached =>
    have := trueHeight_nonneg left
    have := trueHeight_nonneg right
    rw [trueHeight_node] at single
    have empty : ∀ t : AvlTree, t.trueHeight ≤ 0 → t = null := by
      intro t flat
      cases t with
      | null => rfl
      | node e l r c =>
        have := trueHeight_pos e l r c
        omega
    obtain rfl := empty left (by omega)
    obtain rfl := empty right (by omega)
    rw [isLeaf_iff]
    refine ⟨cached, ?_⟩
    simp only [lowers, Bool.false_and] at low
    split at low
    · contradiction
    · split at low
      · contradiction
      · rw [show element = x by omega]

/-- Deleting the element of a leaf lowers it. -/
theorem leaf_lowers (x cached : Int) : (node x null null cached).lowers x = true := by
  simp [lowers]

/-- A tree with a subtree below it has height two at least. -/
theorem two_le_of_far {t far : AvlTree} (present : far ≠ null)
    (below : far = t.leftOf ∨ far = t.rightOf) : 2 ≤ t.trueHeight := by
  cases t with
  | null => simp [leftOf, rightOf, present] at below
  | node element left right cached =>
    cases far with
    | null => exact absurd rfl present
    | node e l r c =>
      have := trueHeight_pos e l r c
      rw [trueHeight_node]
      rcases below with rfl | rfl <;> omega

/-- A side that falls two behind a sibling was lowered, and was one behind. -/
theorem Deleted.lowers_of_high {side side' : AvlTree} {x other : Int}
    (inner : Deleted side x side') (lean : other - side.trueHeight ≤ 1)
    (high : other = side'.trueHeight + 2) :
    side.lowers x = true ∧ side.trueHeight = side'.trueHeight + 1 := by
  have height := inner.height
  have low : side.lowers x = true := by
    by_contra flat
    rw [if_neg flat] at height
    omega
  rw [if_pos low] at height
  exact ⟨low, by omega⟩

/-- Where the lowered side is two behind a sibling of far height at most one, the lowered
side was the deleted leaf. -/
theorem isLeaf_of_missing {side side' far : AvlTree} {x : Int} (inner : Deleted side x side')
    (tilt : far.trueHeight ≤ 1) (lean : max 0 far.trueHeight + 1 - side.trueHeight ≤ 1)
    (high : max 0 far.trueHeight + 1 = side'.trueHeight + 2) :
    side.isLeaf x = true ∧ far ≠ null := by
  obtain ⟨low, heightS⟩ := inner.lowers_of_high lean high
  have := trueHeight_nonneg side'
  refine ⟨isLeaf_of_lowers (by omega) low, ?_⟩
  rintro rfl
  rw [trueHeight_null] at high
  omega

/-- Deletion on the left of a node, from what it does to the left subtree. -/
theorem deleteNode_left (cached : Int) {element x : Int} {left right left' : AvlTree}
    (exactL : left.HeightsExact) (exactR : right.HeightsExact) (balancedR : right.Balanced)
    (above : ∀ a ∈ right.inorder, element < a) (before : x < element)
    (lean : left.trueHeight - right.trueHeight ≤ 1)
    (lean' : right.trueHeight - left.trueHeight ≤ 1) (inner : Deleted left x left')
    (fine : left.stuck x = false) :
    ((node element left right cached).stuck x = true →
      deleteRebalanceLeft x (node element left' right cached) = none) ∧
    ((node element left right cached).stuck x = false →
      ∃ t', (deleteRebalanceLeft x (node element left' right cached)).bind updateHeight = some t' ∧
        Deleted (node element left right cached) x t') := by
  have heightL := inner.height
  have := trueHeight_nonneg left'
  simp only [stuck, before, ↓reduceIte, fine, Bool.or_false, Bool.and_eq_true, decide_eq_true_eq]
  by_cases high : right.trueHeight = left'.trueHeight + 2
  · -- the rotation: the left subtree was lowered and the right one was the higher
    obtain ⟨low, lowered⟩ := inner.lowers_of_high lean' high
    have more : right.trueHeight = left.trueHeight + 1 := by omega
    obtain ⟨child, near, far, stored, rfl⟩ := exists_node_of_pos (t := right) (by omega)
    have smaller : x < child := lt_trans before (above child (by simp [inorder]))
    obtain ⟨crash, turn⟩ := deleteRebalanceLeft_high element cached
      inner.exact exactR balancedR smaller high
    constructor
    · rintro ⟨⟨-, missing⟩, -⟩
      exact crash missing
    · intro notStuck
      have nearPresent : near ≠ null := by
        intro missing
        subst missing
        obtain ⟨leaf, present⟩ :=
          isLeaf_of_missing inner (by simpa using balancedR.2.2.2) lean' high
        rw [leaf] at notStuck
        simp [leftOf, rightOf, present] at notStuck
      obtain ⟨t', rotated, exact', height', balance'⟩ := turn nearPresent
      have present : t' ≠ null := by
        rintro rfl
        rw [trueHeight_null] at height'
        split at height' <;> omega
      refine ⟨t', by rw [rotated]; exact updateHeight_self exact' present, exact', ?_, ?_⟩
      · rw [height', lowers, if_pos before, low, exactL.height_eq, exactR.height_eq, if_pos more,
          trueHeight_node element, more]
        by_cases heavy : far.height < near.height
        · simp only [heavy, ↓reduceIte, leftOf, rightOf, decide_true, Bool.and_self]
          omega
        · simp only [heavy, ↓reduceIte, leftOf, rightOf, decide_false, Bool.and_false,
            Bool.false_eq_true]
          omega
      · rw [balance', inner.balanced]
        simp only [staysBalanced, before, ↓reduceIte, low, Bool.true_and, leftOf, rightOf,
          exactL.height_eq, exactR.height_eq, more, decide_true, Bool.and_eq_true]
  · have still : deleteRebalanceLeft x (node element left' right cached) =
        some (node element left' right cached) := by
      rw [deleteRebalanceLeft, inner.exact.height_eq, exactR.height_eq, if_neg (by omega)]
    rw [still]
    constructor
    · rintro ⟨⟨leaf, -⟩, present⟩
      -- a deleted leaf leaves height zero, and a sibling with a far child has height two
      obtain ⟨kept, rfl⟩ := isLeaf_iff.mp leaf
      rw [leaf_lowers, if_pos rfl] at heightL
      have two := two_le_of_far present (Or.inr rfl)
      simp only [trueHeight_node, trueHeight_null] at *
      omega
    · intro notStuck
      refine ⟨_, updateHeight_exact element cached inner.exact exactR, ⟨inner.exact, exactR, rfl⟩,
        ?_, ?_⟩
      · simp only [lowers, before, ↓reduceIte, exactL.height_eq, exactR.height_eq, trueHeight_node]
        cases low : left.lowers x with
        | false =>
          simp only [low, Bool.false_eq_true, ↓reduceIte] at heightL
          simp only [Bool.false_and, Bool.false_eq_true, ↓reduceIte]
          omega
        | true =>
          rw [low, if_pos rfl] at heightL
          have notMore : ¬ right.trueHeight = left.trueHeight + 1 := by omega
          simp only [if_neg notMore, Bool.true_and, decide_eq_true_eq]
          split <;> omega
      · simp only [staysBalanced, before, ↓reduceIte, exactL.height_eq, exactR.height_eq,
          Balanced, inner.balanced, balancedR, true_and, Bool.and_eq_true, decide_eq_true_eq]
        rw [if_neg]
        · constructor
          · rintro ⟨kept, -⟩
            exact ⟨kept, rfl⟩
          · rintro ⟨kept, -⟩
            refine ⟨kept, ?_⟩
            split at heightL <;> omega
        · rintro ⟨low, more⟩
          rw [if_pos low] at heightL
          omega

/-- Deletion on the right of a node, from what it does to the right subtree. -/
theorem deleteNode_right (cached : Int) {element x : Int} {left right right' : AvlTree}
    (exactL : left.HeightsExact) (exactR : right.HeightsExact) (balancedL : left.Balanced)
    (below : ∀ a ∈ left.inorder, a < element) (after : element < x)
    (lean : left.trueHeight - right.trueHeight ≤ 1)
    (lean' : right.trueHeight - left.trueHeight ≤ 1) (inner : Deleted right x right')
    (fine : right.stuck x = false) :
    ((node element left right cached).stuck x = true →
      deleteRebalanceRight x (node element left right' cached) = none) ∧
    ((node element left right cached).stuck x = false →
      ∃ t', (deleteRebalanceRight x (node element left right' cached)).bind updateHeight = some t' ∧
        Deleted (node element left right cached) x t') := by
  have heightR := inner.height
  have := trueHeight_nonneg right'
  have notBefore : ¬ x < element := not_lt.mpr (le_of_lt after)
  simp only [stuck, notBefore, after, ↓reduceIte, fine, Bool.or_false, Bool.and_eq_true,
    decide_eq_true_eq]
  by_cases high : left.trueHeight = right'.trueHeight + 2
  · obtain ⟨low, lowered⟩ := inner.lowers_of_high lean high
    have more : left.trueHeight = right.trueHeight + 1 := by omega
    obtain ⟨child, far, near, stored, rfl⟩ := exists_node_of_pos (t := left) (by omega)
    have larger : child < x := lt_trans (below child (by simp [inorder])) after
    obtain ⟨crash, turn⟩ := deleteRebalanceRight_high element cached
      inner.exact exactL balancedL larger high
    constructor
    · rintro ⟨⟨-, missing⟩, -⟩
      exact crash missing
    · intro notStuck
      have nearPresent : near ≠ null := by
        intro missing
        subst missing
        rw [trueHeight_node, max_comm] at lean high
        obtain ⟨leaf, present⟩ :=
          isLeaf_of_missing inner (by simpa using balancedL.2.2.1) lean high
        rw [leaf] at notStuck
        simp [leftOf, rightOf, present] at notStuck
      obtain ⟨t', rotated, exact', height', balance'⟩ := turn nearPresent
      have present : t' ≠ null := by
        rintro rfl
        rw [trueHeight_null] at height'
        split at height' <;> omega
      refine ⟨t', by rw [rotated]; exact updateHeight_self exact' present, exact', ?_, ?_⟩
      · rw [height', lowers, if_neg notBefore, if_pos after, low, exactL.height_eq,
          exactR.height_eq, if_pos more, trueHeight_node element, more]
        by_cases heavy : far.height < near.height
        · simp only [heavy, ↓reduceIte, leftOf, rightOf, decide_true, Bool.and_self]
          omega
        · simp only [heavy, ↓reduceIte, leftOf, rightOf, decide_false, Bool.and_false,
            Bool.false_eq_true]
          omega
      · rw [balance', inner.balanced]
        simp only [staysBalanced, notBefore, after, ↓reduceIte, low, Bool.true_and, leftOf, rightOf,
          exactL.height_eq, exactR.height_eq, more, decide_true, Bool.and_eq_true]
  · have still : deleteRebalanceRight x (node element left right' cached) =
        some (node element left right' cached) := by
      rw [deleteRebalanceRight, inner.exact.height_eq, exactL.height_eq, if_neg (by omega)]
    rw [still]
    constructor
    · rintro ⟨⟨leaf, -⟩, present⟩
      obtain ⟨kept, rfl⟩ := isLeaf_iff.mp leaf
      rw [leaf_lowers, if_pos rfl] at heightR
      have two := two_le_of_far present (Or.inl rfl)
      simp only [trueHeight_node, trueHeight_null] at *
      omega
    · intro notStuck
      refine ⟨_, updateHeight_exact element cached exactL inner.exact, ⟨exactL, inner.exact, rfl⟩,
        ?_, ?_⟩
      · simp only [lowers, notBefore, after, ↓reduceIte, exactL.height_eq, exactR.height_eq,
          trueHeight_node]
        cases low : right.lowers x with
        | false =>
          simp only [low, Bool.false_eq_true, ↓reduceIte] at heightR
          simp only [Bool.false_and, Bool.false_eq_true, ↓reduceIte]
          omega
        | true =>
          rw [low, if_pos rfl] at heightR
          have notMore : ¬ left.trueHeight = right.trueHeight + 1 := by omega
          simp only [if_neg notMore, Bool.true_and, decide_eq_true_eq]
          split <;> omega
      · simp only [staysBalanced, notBefore, after, ↓reduceIte, exactL.height_eq, exactR.height_eq,
          Balanced, inner.balanced, balancedL, true_and, Bool.and_eq_true, decide_eq_true_eq]
        rw [if_neg]
        · constructor
          · rintro ⟨kept, -⟩
            exact ⟨kept, rfl⟩
          · rintro ⟨kept, -⟩
            refine ⟨kept, ?_⟩
            split at heightR <;> omega
        · rintro ⟨low, more⟩
          rw [if_pos low] at heightR
          omega

/-- Deletion of the element of a node with two children: its right subtree loses its
minimum, and the node is not rebalanced. -/
theorem deleteNode_middle {x least cached : Int} {left right right' : AvlTree}
    (exactL : left.HeightsExact) (exactR : right.HeightsExact) (balancedL : left.Balanced)
    (lean : left.trueHeight - right.trueHeight ≤ 1)
    (lean' : right.trueHeight - left.trueHeight ≤ 1) (inner : Deleted right least right')
    (both : left ≠ null ∧ right ≠ null) (found : right.findmin.element? = some least) :
    ∃ t', (node least left right' cached).updateHeight = some t' ∧
      Deleted (node x left right cached) x t' := by
  have heightR := inner.height
  refine ⟨_, updateHeight_exact least cached exactL inner.exact, ⟨exactL, inner.exact, rfl⟩,
    ?_, ?_⟩
  · simp only [lowers, lt_irrefl, ↓reduceIte, if_pos both, found, exactL.height_eq,
      exactR.height_eq, trueHeight_node, Bool.and_eq_true, decide_eq_true_eq]
    by_cases low : right.lowers least = true
    · rw [if_pos low] at heightR
      simp only [low, true_and]
      split <;> omega
    · rw [if_neg low] at heightR
      simp only [low, Bool.false_eq_true, false_and, ↓reduceIte]
      omega
  · simp only [staysBalanced, lt_irrefl, ↓reduceIte, if_pos both, found, exactL.height_eq,
      exactR.height_eq, Balanced, balancedL, inner.balanced, true_and, Bool.and_eq_true,
      Bool.or_eq_true, Bool.not_eq_true', decide_eq_true_eq]
    by_cases low : right.lowers least = true
    · rw [if_pos low] at heightR
      simp only [low, Bool.true_eq_false, false_or]
      constructor
      · rintro ⟨kept, tilt, -⟩
        exact ⟨kept, by omega⟩
      · rintro ⟨kept, tilt⟩
        exact ⟨kept, by omega⟩
    · rw [if_neg low] at heightR
      simp only [low, true_or, and_true]
      exact and_iff_left (by omega)

/-- What a deletion from an AVL tree does: it dereferences `NULL` exactly when it is stuck,
and otherwise has the height and the balance read off the tree before it. -/
theorem deleteNode_spec {t : AvlTree} (avl : t.IsAvl) (x : Int) :
    (t.stuck x = true → deleteNode t x = none) ∧
      (t.stuck x = false → ∃ t', deleteNode t x = some t' ∧ Deleted t x t') := by
  obtain ⟨ordered, exact, balanced⟩ := avl
  induction t generalizing x with
  | null => exact ⟨fun h => by simp [stuck] at h, fun _ => ⟨null, rfl, trivial, by simp [lowers],
      by simp [Balanced, staysBalanced]⟩⟩
  | node element left right cached leftPart rightPart =>
    by_cases absent : (node element left right cached).find x = null
    · obtain ⟨notStuck, notLow, stays⟩ :=
        absent_meets_nothing ordered ((find_eq_null ordered x).mp absent)
      rw [notStuck, deleteNode, if_pos absent]
      refine ⟨fun h => by simp at h, fun _ => ⟨_, rfl, exact, ?_, ?_⟩⟩
      · simp [notLow]
      · exact ⟨fun _ => stays, fun _ => balanced⟩
    · rw [deleteNode, if_neg absent]
      obtain ⟨orderedL, orderedR, below, above⟩ := ordered
      obtain ⟨exactL, exactR, stored⟩ := exact
      obtain ⟨balancedL, balancedR, lean, lean'⟩ := balanced
      rcases lt_trichotomy x element with before | rfl | after
      · obtain ⟨crash, finish⟩ := leftPart x orderedL exactL balancedL
        rw [if_pos before]
        cases inner : left.stuck x with
        | true => simp [stuck, before, inner, crash inner]
        | false =>
          obtain ⟨left', deleted, outcome⟩ := finish inner
          obtain ⟨fails, works⟩ := deleteNode_left cached exactL exactR balancedR
            above before lean lean' outcome inner
          simp only [deleted, Option.bind_eq_bind, Option.bind_some]
          exact ⟨fun h => by rw [fails h]; rfl, works⟩
      · rw [if_neg (lt_irrefl x), if_neg (lt_irrefl x)]
        by_cases both : left ≠ null ∧ right ≠ null
        · obtain ⟨least, rest, found, -⟩ := findmin_element both.2
          obtain ⟨crash, finish⟩ := rightPart least orderedR exactR balancedR
          simp only [stuck, lt_irrefl, ↓reduceIte, if_pos both, found, Option.bind_eq_bind,
            Option.bind_some]
          refine ⟨fun inner => by rw [crash inner]; rfl, fun inner => ?_⟩
          obtain ⟨right', deleted, outcome⟩ := finish inner
          simp only [deleted, Option.bind_some]
          exact deleteNode_middle exactL exactR balancedL lean lean' outcome both found
        · simp only [stuck, lt_irrefl, ↓reduceIte, if_neg both]
          refine ⟨fun h => by simp at h, fun _ => ?_⟩
          by_cases emptyLeft : left = null
          · subst emptyLeft
            refine ⟨right, ?_, exactR, ?_, ?_⟩
            · by_cases emptyRight : right = null
              · simp [emptyRight]
              · simp [emptyRight, updateHeight_self exactR emptyRight]
            · have := trueHeight_nonneg right
              simp [lowers, this]
            · simp [staysBalanced, balancedR]
          · have emptyRight : right = null := by
              by_contra present
              exact both ⟨emptyLeft, present⟩
            subst emptyRight
            refine ⟨left, ?_, exactL, ?_, ?_⟩
            · simp [emptyLeft, updateHeight_self exactL emptyLeft]
            · have := trueHeight_nonneg left
              simp [lowers, this]
            · simp [staysBalanced, balancedL]
      · obtain ⟨crash, finish⟩ := rightPart x orderedR exactR balancedR
        rw [if_neg (by omega), if_pos after]
        have notBefore : ¬ x < element := not_lt.mpr (le_of_lt after)
        cases inner : right.stuck x with
        | true => simp [stuck, notBefore, after, inner, crash inner]
        | false =>
          obtain ⟨right', deleted, outcome⟩ := finish inner
          obtain ⟨fails, works⟩ := deleteNode_right cached exactL exactR balancedL
            below after lean lean' outcome inner
          simp only [deleted, Option.bind_eq_bind, Option.bind_some]
          exact ⟨fun h => by rw [fails h]; rfl, works⟩

/-! ## When deletion is right -/

/-- Deletion removes exactly its element and dereferences no `NULL` if and only if it is not
stuck at a missing grandchild. -/
theorem deleteNode_removes_iff (t : AvlTree) (x : Int) (avl : t.IsAvl) :
    (∃ t', deleteNode t x = some t' ∧ t'.inorder = t.inorder.erase x) ↔ t.stuck x = false := by
  obtain ⟨crash, finish⟩ := deleteNode_spec avl x
  constructor
  · rintro ⟨t', deleted, -⟩
    by_contra inner
    rw [crash (by simpa using inner)] at deleted
    contradiction
  · intro fine
    obtain ⟨t', deleted, -⟩ := finish fine
    exact ⟨t', deleted, deleteNode_inorder avl.ordered deleted⟩

/-- The tree with root 2, left child 1 and right child 3, whose right child is 4. -/
def rightLeaning : AvlTree :=
  node 2 (node 1 null null 1) (node 3 null (node 4 null null 1) 2) 3

/-- That tree is an AVL tree. -/
theorem rightLeaning_avl : rightLeaning.IsAvl := by
  constructor
  · simp [rightLeaning, Ordered, inorder]
  · simp [rightLeaning, HeightsExact]
  · simp [rightLeaning, Balanced]

/-- The criterion at an element whose deletion completes. -/
theorem deleteNode_removes_four :
    (∃ t', deleteNode rightLeaning 4 = some t' ∧
      t'.inorder = rightLeaning.inorder.erase 4) ↔ rightLeaning.stuck 4 = false :=
  deleteNode_removes_iff rightLeaning 4 rightLeaning_avl

/-- Deleting 1 from that tree dereferences `NULL`. -/
theorem deleteNode_dereferences_null :
    rightLeaning.IsAvl ∧ deleteNode rightLeaning 1 = none :=
  ⟨rightLeaning_avl, by decide⟩

/-- A deletion that completes gives an AVL tree if and only if every rebalancing on its way
balances; a deletion that is stuck never completes. -/
theorem deleteNode_balanced_iff (t : AvlTree) (x : Int) (avl : t.IsAvl) :
    (∀ t', deleteNode t x = some t' → t'.IsAvl) ↔
      (t.stuck x = true ∨ t.staysBalanced x = true) := by
  obtain ⟨crash, finish⟩ := deleteNode_spec avl x
  cases inner : t.stuck x with
  | true => simp [crash inner]
  | false =>
    obtain ⟨t', deleted, outcome⟩ := finish inner
    have sorted : t'.Ordered := by
      rw [ordered_iff_sorted, deleteNode_inorder avl.ordered deleted]
      exact ((ordered_iff_sorted t).mp avl.ordered).sublist List.erase_sublist
    simp only [deleted, Option.some.injEq, forall_eq', Bool.false_eq_true, false_or,
      ← outcome.balanced]
    exact ⟨IsAvl.balanced, fun kept => ⟨sorted, outcome.exact, kept⟩⟩

/-- The criterion at an element whose deletion completes and balances. -/
theorem deleteNode_balanced_four :
    (∀ t', deleteNode rightLeaning 4 = some t' → t'.IsAvl) ↔
      (rightLeaning.stuck 4 = true ∨ rightLeaning.staysBalanced 4 = true) :=
  deleteNode_balanced_iff rightLeaning 4 rightLeaning_avl

/-- The root 2 over 1 and a right child 3, with 0 below 1: the minimum of the right subtree
is the right child itself. -/
def leftLeaning : AvlTree :=
  node 2 (node 1 (node 0 null null 1) null 2) (node 3 null null 1) 3

/-- Deleting the root of that AVL tree completes with a root that leans by two. -/
theorem deleteNode_unbalances :
    leftLeaning.IsAvl ∧ ∃ t', deleteNode leftLeaning 2 = some t' ∧ ¬ t'.IsAvl := by
  refine ⟨⟨?_, ?_, ?_⟩, node 3 (node 1 (node 0 null null 1) null 2) null 3, by decide, ?_⟩
  · simp [leftLeaning, Ordered, inorder]
  · simp [leftLeaning, HeightsExact]
  · simp [leftLeaning, Balanced]
  · rintro ⟨-, -, balanced⟩
    simp [Balanced] at balanced

end CodeLearning.Avl.AvlTree

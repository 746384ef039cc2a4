import CodeLearning.Avl.Tree

/-!
# Insertion into the AVL tree

The rotation of `insert_node` is chosen by comparing the new element with the element of
the grown child, not by the child's balance. The two agree because a subtree that grew
leans towards the new element (`LeansTo`), which is the invariant carried up the recursion.
Rotations keep the in-order sequence, so the sequence of the result is decided by the
search path alone.
-/

namespace CodeLearning.Avl.AvlTree

/-! ## Heights -/

/-- True heights are not negative. -/
theorem trueHeight_nonneg (t : AvlTree) : 0 ≤ t.trueHeight := by
  induction t with
  | null => simp
  | node element left right cached leftPart rightPart =>
    rw [trueHeight_node]
    omega

/-- Only the empty tree has true height zero. -/
theorem trueHeight_pos (element : Int) (left right : AvlTree) (cached : Int) :
    0 < (node element left right cached).trueHeight := by
  have := trueHeight_nonneg left
  rw [trueHeight_node]
  omega

/-- A tree of positive true height is a node. -/
theorem exists_node_of_pos {t : AvlTree} (positive : 0 < t.trueHeight) :
    ∃ element left right cached, t = node element left right cached := by
  cases t with
  | null => simp at positive
  | node element left right cached => exact ⟨element, left, right, cached, rfl⟩

/-- Where the cached heights are exact, `height` returns the true height. -/
theorem HeightsExact.height_eq {t : AvlTree} (exact : t.HeightsExact) :
    t.height = t.trueHeight := by
  cases t with
  | null => rfl
  | node element left right cached => exact exact.2.2

/-- Refreshing the height of a node whose subtrees are exact makes the node exact. -/
theorem updateHeight_exact (element : Int) {left right : AvlTree} (cached : Int)
    (first : left.HeightsExact) (second : right.HeightsExact) :
    (node element left right cached).updateHeight =
      some (node element left right (max left.trueHeight right.trueHeight + 1)) := by
  simp [updateHeight, first.height_eq, second.height_eq]

/-- Refreshing the height of an exact node changes nothing. -/
theorem updateHeight_self {t : AvlTree} (exact : t.HeightsExact) (present : t ≠ null) :
    t.updateHeight = some t := by
  cases t with
  | null => exact absurd rfl present
  | node element left right cached =>
    rw [updateHeight_exact element cached exact.1 exact.2.1, exact.2.2]

/-! ## Rotations keep the in-order sequence -/

/-- `left_left_rotate` keeps the in-order sequence. -/
theorem leftLeftRotate_inorder {t t' : AvlTree} (rotated : t.leftLeftRotate = some t') :
    t'.inorder = t.inorder := by
  unfold leftLeftRotate at rotated
  split at rotated
  · cases rotated
    simp [inorder]
  · contradiction

/-- `right_right_rotate` keeps the in-order sequence. -/
theorem rightRightRotate_inorder {t t' : AvlTree} (rotated : t.rightRightRotate = some t') :
    t'.inorder = t.inorder := by
  unfold rightRightRotate at rotated
  split at rotated
  · cases rotated
    simp [inorder]
  · contradiction

/-- `left_right_rotate` keeps the in-order sequence. -/
theorem leftRightRotate_inorder {t t' : AvlTree} (rotated : t.leftRightRotate = some t') :
    t'.inorder = t.inorder := by
  cases t with
  | null => contradiction
  | node element left right cached =>
    obtain ⟨middle, inner, outer⟩ := Option.bind_eq_some_iff.mp rotated
    rw [leftLeftRotate_inorder outer]
    simp only [inorder, rightRightRotate_inorder inner]

/-- `right_left_rotate` keeps the in-order sequence. -/
theorem rightLeftRotate_inorder {t t' : AvlTree} (rotated : t.rightLeftRotate = some t') :
    t'.inorder = t.inorder := by
  cases t with
  | null => contradiction
  | node element left right cached =>
    obtain ⟨middle, inner, outer⟩ := Option.bind_eq_some_iff.mp rotated
    rw [rightRightRotate_inorder outer]
    simp only [inorder, leftLeftRotate_inorder inner]

/-- Refreshing a height keeps the in-order sequence. -/
theorem updateHeight_inorder {t t' : AvlTree} (updated : t.updateHeight = some t') :
    t'.inorder = t.inorder := by
  cases t with
  | null => contradiction
  | node element left right cached =>
    cases updated
    rfl

/-! ## The search order and the sorted sequence -/

/-- Search order is sortedness of the in-order sequence. -/
theorem ordered_iff_sorted (t : AvlTree) :
    t.Ordered ↔ t.inorder.Pairwise (· < ·) := by
  induction t with
  | null => simp [Ordered, inorder]
  | node element left right cached leftPart rightPart =>
    simp only [Ordered, inorder, leftPart, rightPart, List.pairwise_append,
      List.pairwise_cons, List.mem_cons]
    constructor
    · rintro ⟨first, second, below, above⟩
      refine ⟨first, ⟨above, second⟩, ?_⟩
      rintro a inLeft b (rfl | inRight)
      · exact below a inLeft
      · exact lt_trans (below a inLeft) (above b inRight)
    · rintro ⟨first, ⟨above, second⟩, across⟩
      exact ⟨first, second, fun a inLeft => across a inLeft element (Or.inl rfl), above⟩

/-- A sequence with an element put at its place, unless it is there already. -/
def insertSorted (x : Int) (sequence : List Int) : List Int :=
  if x ∈ sequence then sequence else sequence.orderedInsert (· ≤ ·) x

/-- Insertion below a bound happens in the part below the bound. -/
theorem insertSorted_left {x bound : Int} {low high : List Int} (below : x < bound)
    (above : ∀ a ∈ high, bound < a) :
    insertSorted x (low ++ bound :: high) = insertSorted x low ++ bound :: high := by
  have outside : x ∉ bound :: high := by
    rw [List.mem_cons, not_or]
    exact ⟨ne_of_lt below, fun inHigh => absurd (above x inHigh) (by omega)⟩
  have placed : ∀ low : List Int, (low ++ bound :: high).orderedInsert (· ≤ ·) x =
      low.orderedInsert (· ≤ ·) x ++ bound :: high := by
    intro low
    induction low with
    | nil => simp [List.orderedInsert, le_of_lt below]
    | cons a rest tail =>
      simp only [List.cons_append, List.orderedInsert_cons, tail]
      split <;> simp
  simp only [insertSorted, List.mem_append, outside, or_false, placed]
  split <;> rfl

/-- Insertion above a bound happens in the part above the bound. -/
theorem insertSorted_right {x bound : Int} {low high : List Int} (above : bound < x)
    (below : ∀ a ∈ low, a < bound) :
    insertSorted x (low ++ bound :: high) = low ++ bound :: insertSorted x high := by
  have outside : x ∉ low := fun inLow => absurd (below x inLow) (by omega)
  have placed : ∀ low : List Int, (∀ a ∈ low, a < bound) →
      (low ++ bound :: high).orderedInsert (· ≤ ·) x =
      low ++ bound :: high.orderedInsert (· ≤ ·) x := by
    intro low small
    induction low with
    | nil => simp [not_le.mpr above]
    | cons a rest tail =>
      have step := small a List.mem_cons_self
      simp only [List.cons_append, List.orderedInsert_cons,
        tail fun b inRest => small b (List.mem_cons_of_mem a inRest)]
      rw [if_neg (by omega)]
  have apart : x ≠ bound := ne_of_gt above
  simp only [insertSorted, List.mem_append, List.mem_cons, outside, apart, false_or,
    placed low below]
  split <;> rfl

/-- Insertion keeps a sequence sorted. -/
theorem insertSorted_sorted (x : Int) {sequence : List Int}
    (sorted : sequence.Pairwise (· < ·)) : (insertSorted x sequence).Pairwise (· < ·) := by
  unfold insertSorted
  split
  · exact sorted
  · rename_i absent
    induction sequence with
    | nil => simp
    | cons a rest tail =>
      rw [List.pairwise_cons] at sorted
      rw [List.mem_cons, not_or] at absent
      rw [List.orderedInsert_cons]
      split
      · rename_i before
        have strict : x < a := lt_of_le_of_ne before absent.1
        rw [List.pairwise_cons]
        refine ⟨?_, List.pairwise_cons.mpr sorted⟩
        rintro b (_ | ⟨_, inRest⟩)
        · exact strict
        · exact lt_trans strict (sorted.1 b (by assumption))
      · rename_i after
        rw [List.pairwise_cons]
        refine ⟨?_, tail sorted.2 absent.2⟩
        intro b inRest
        rcases (List.mem_orderedInsert _).mp inRest with rfl | inRest
        · omega
        · exact sorted.1 b inRest

/-- Insertion adds exactly the inserted element. -/
theorem mem_insertSorted (a x : Int) (sequence : List Int) :
    a ∈ insertSorted x sequence ↔ a = x ∨ a ∈ sequence := by
  unfold insertSorted
  split
  · rename_i present
    constructor
    · exact Or.inr
    · rintro (rfl | inside)
      · exact present
      · exact inside
  · exact List.mem_orderedInsert _

/-! ## Balance after insertion -/

/-- The root of the tree leans towards `x`: the subtree on the side of `x` is the higher
one. A subtree that insertion of `x` made higher is of this kind. -/
def LeansTo (x : Int) : AvlTree → Prop
  | null => False
  | node element left right _ =>
    (x < element ∧ left.trueHeight = right.trueHeight + 1) ∨
      (element < x ∧ right.trueHeight = left.trueHeight + 1)

/-- The rebalancing of `insert_node` after the left subtree became two higher than the
right one: the rotation exists and gives back the height before the insertion. -/
theorem insertRebalanceLeft_high {x element cached : Int} {left right : AvlTree}
    (exactL : left.HeightsExact) (exactR : right.HeightsExact) (balancedL : left.Balanced)
    (balancedR : right.Balanced) (high : left.trueHeight = right.trueHeight + 2)
    (leans : left.LeansTo x) :
    ∃ t', insertRebalanceLeft x (node element left right cached) = some t' ∧
      t'.HeightsExact ∧ t'.Balanced ∧ t'.trueHeight = right.trueHeight + 2 := by
  have gap : left.height - right.height = 2 := by
    rw [exactL.height_eq, exactR.height_eq]
    omega
  simp only [insertRebalanceLeft, gap, ↓reduceIte]
  cases left with
  | null => exact leans.elim
  | node child outer inner stored =>
    obtain ⟨exactO, exactI, -⟩ := exactL
    obtain ⟨balancedO, balancedI, -, -⟩ := balancedL
    rw [trueHeight_node] at high
    simp only [element?, Option.bind_eq_bind, Option.bind_some]
    rcases leans with ⟨before, heavy⟩ | ⟨after, heavy⟩
    · rw [if_pos before]
      refine ⟨_, rfl, ?_⟩
      simp only [HeightsExact, Balanced, trueHeight_node, height_node, exactO.height_eq,
        exactI.height_eq, exactR.height_eq, exactO, exactI, exactR, balancedO, balancedI,
        balancedR, true_and]
      omega
    · -- the inner grandchild exists because it is the higher subtree of the child
      have positive : 0 < inner.trueHeight := by
        have := trueHeight_nonneg outer
        omega
      obtain ⟨top, near, far, kept, rfl⟩ := exists_node_of_pos positive
      obtain ⟨exactN, exactF, -⟩ := exactI
      obtain ⟨balancedN, balancedF, lean, lean'⟩ := balancedI
      rw [if_neg (not_lt.mpr (le_of_lt after))]
      refine ⟨_, rfl, ?_⟩
      simp only [trueHeight_node] at high heavy
      simp only [HeightsExact, Balanced, trueHeight_node, height_node, exactO.height_eq,
        exactN.height_eq, exactF.height_eq, exactR.height_eq, exactO, exactN, exactF, exactR,
        balancedO, balancedN, balancedF, balancedR, true_and]
      omega

/-- The same rebalancing on the right. -/
theorem insertRebalanceRight_high {x element cached : Int} {left right : AvlTree}
    (exactL : left.HeightsExact) (exactR : right.HeightsExact) (balancedL : left.Balanced)
    (balancedR : right.Balanced) (high : right.trueHeight = left.trueHeight + 2)
    (leans : right.LeansTo x) :
    ∃ t', insertRebalanceRight x (node element left right cached) = some t' ∧
      t'.HeightsExact ∧ t'.Balanced ∧ t'.trueHeight = left.trueHeight + 2 := by
  have gap : right.height - left.height = 2 := by
    rw [exactL.height_eq, exactR.height_eq]
    omega
  simp only [insertRebalanceRight, gap, ↓reduceIte]
  cases right with
  | null => exact leans.elim
  | node child inner outer stored =>
    obtain ⟨exactI, exactO, -⟩ := exactR
    obtain ⟨balancedI, balancedO, -, -⟩ := balancedR
    rw [trueHeight_node] at high
    simp only [element?, Option.bind_eq_bind, Option.bind_some, gt_iff_lt]
    rcases leans with ⟨before, heavy⟩ | ⟨after, heavy⟩
    · have positive : 0 < inner.trueHeight := by
        have := trueHeight_nonneg outer
        omega
      obtain ⟨top, far, near, kept, rfl⟩ := exists_node_of_pos positive
      obtain ⟨exactF, exactN, -⟩ := exactI
      obtain ⟨balancedF, balancedN, lean, lean'⟩ := balancedI
      rw [if_neg (not_lt.mpr (le_of_lt before))]
      refine ⟨_, rfl, ?_⟩
      simp only [trueHeight_node] at high heavy
      simp only [HeightsExact, Balanced, trueHeight_node, height_node, exactO.height_eq,
        exactN.height_eq, exactF.height_eq, exactL.height_eq, exactO, exactN, exactF, exactL,
        balancedO, balancedN, balancedF, balancedL, true_and]
      omega
    · rw [if_pos after]
      refine ⟨_, rfl, ?_⟩
      simp only [HeightsExact, Balanced, trueHeight_node, height_node, exactO.height_eq,
        exactI.height_eq, exactL.height_eq, exactO, exactI, exactL, balancedO, balancedI,
        balancedL, true_and]
      omega

/-- What one insertion does to heights and balance: it succeeds, keeps the cached heights
exact and the tree balanced, and makes the tree higher by at most one; a non-empty tree
that grew leans towards the new element. -/
theorem insertNode_balance (t : AvlTree) (x : Int) (exact : t.HeightsExact)
    (balanced : t.Balanced) :
    ∃ t', insertNode true t x = some t' ∧ t'.HeightsExact ∧ t'.Balanced ∧
      (t'.trueHeight = t.trueHeight ∨
        t'.trueHeight = t.trueHeight + 1 ∧ (t = null ∨ t'.LeansTo x)) := by
  induction t with
  | null =>
    refine ⟨node x null null 1, by simp [insertNode, updateHeight], ?_⟩
    simp [HeightsExact, Balanced]
  | node element left right cached leftPart rightPart =>
    obtain ⟨exactL, exactR, stored⟩ := exact
    obtain ⟨balancedL, balancedR, lean, lean'⟩ := balanced
    rcases lt_trichotomy x element with before | rfl | after
    · obtain ⟨left', inserted, exactL', balancedL', grown⟩ := leftPart exactL balancedL
      simp only [insertNode, before, ↓reduceIte, inserted, Option.bind_eq_bind,
        Option.bind_some, trueHeight_node]
      by_cases high : left'.trueHeight = right.trueHeight + 2
      · have leans : left'.LeansTo x := by
          rcases grown with same | ⟨more, rfl | leans⟩
          · omega
          · -- an empty left subtree grows to height one only
            have := trueHeight_nonneg right
            rw [trueHeight_null] at more lean'
            omega
          · exact leans
        obtain ⟨t', rotated, exact', balanced', height'⟩ :=
          insertRebalanceLeft_high exactL' exactR balancedL' balancedR high leans
        have present : t' ≠ null := by
          rintro rfl
          have := trueHeight_nonneg right
          rw [trueHeight_null] at height'
          omega
        refine ⟨t', ?_, exact', balanced', Or.inl (by omega)⟩
        rw [rotated]
        exact updateHeight_self exact' present
      · have still : insertRebalanceLeft x (node element left' right cached) =
            some (node element left' right cached) := by
          rw [insertRebalanceLeft, exactL'.height_eq, exactR.height_eq, if_neg (by omega)]
        have step := grown.imp id And.left
        rw [still]
        refine ⟨_, updateHeight_exact element cached exactL' exactR, ?_, ?_, ?_⟩
        · exact ⟨exactL', exactR, rfl⟩
        · exact ⟨balancedL', balancedR, by omega, by omega⟩
        · simp only [trueHeight_node, LeansTo, before, reduceCtorEq, true_and, false_or]
          omega
    · refine ⟨node x left right cached, ?_, ⟨exactL, exactR, stored⟩,
        ⟨balancedL, balancedR, lean, lean'⟩, Or.inl rfl⟩
      simp only [insertNode, lt_irrefl, ↓reduceIte]
      exact updateHeight_self ⟨exactL, exactR, stored⟩ (by simp)
    · obtain ⟨right', inserted, exactR', balancedR', grown⟩ := rightPart exactR balancedR
      have notBefore : ¬ x < element := not_lt.mpr (le_of_lt after)
      simp only [insertNode, notBefore, gt_iff_lt, after, ↓reduceIte, inserted,
        Option.bind_eq_bind, Option.bind_some, trueHeight_node]
      by_cases high : right'.trueHeight = left.trueHeight + 2
      · have leans : right'.LeansTo x := by
          rcases grown with same | ⟨more, rfl | leans⟩
          · omega
          · have := trueHeight_nonneg left
            rw [trueHeight_null] at more lean
            omega
          · exact leans
        obtain ⟨t', rotated, exact', balanced', height'⟩ :=
          insertRebalanceRight_high exactL exactR' balancedL balancedR' high leans
        have present : t' ≠ null := by
          rintro rfl
          have := trueHeight_nonneg left
          rw [trueHeight_null] at height'
          omega
        refine ⟨t', ?_, exact', balanced', Or.inl (by omega)⟩
        rw [rotated]
        exact updateHeight_self exact' present
      · have still : insertRebalanceRight x (node element left right' cached) =
            some (node element left right' cached) := by
          rw [insertRebalanceRight, exactL.height_eq, exactR'.height_eq, if_neg (by omega)]
        have step := grown.imp id And.left
        rw [still]
        refine ⟨_, updateHeight_exact element cached exactL exactR', ?_, ?_, ?_⟩
        · exact ⟨exactL, exactR', rfl⟩
        · exact ⟨balancedL, balancedR', by omega, by omega⟩
        · simp only [trueHeight_node, LeansTo, after, reduceCtorEq, true_and, false_or]
          omega

/-! ## The sequence after insertion -/

/-- Rebalancing on the left keeps the in-order sequence. -/
theorem insertRebalanceLeft_inorder {x : Int} {t t' : AvlTree}
    (rebalanced : insertRebalanceLeft x t = some t') : t'.inorder = t.inorder := by
  cases t with
  | null => contradiction
  | node element left right cached =>
    simp only [insertRebalanceLeft] at rebalanced
    split at rebalanced
    · obtain ⟨child, -, rotated⟩ := Option.bind_eq_some_iff.mp rebalanced
      split at rotated
      · exact leftLeftRotate_inorder rotated
      · exact leftRightRotate_inorder rotated
    · cases rebalanced
      rfl

/-- Rebalancing on the right keeps the in-order sequence. -/
theorem insertRebalanceRight_inorder {x : Int} {t t' : AvlTree}
    (rebalanced : insertRebalanceRight x t = some t') : t'.inorder = t.inorder := by
  cases t with
  | null => contradiction
  | node element left right cached =>
    simp only [insertRebalanceRight] at rebalanced
    split at rebalanced
    · obtain ⟨child, -, rotated⟩ := Option.bind_eq_some_iff.mp rebalanced
      split at rotated
      · exact rightRightRotate_inorder rotated
      · exact rightLeftRotate_inorder rotated
    · cases rebalanced
      rfl

/-- Every insertion that succeeds into an ordered tree puts the element at its place in the
in-order sequence. -/
theorem insertNode_inorder {t t' : AvlTree} {x : Int} (ordered : t.Ordered)
    (inserted : insertNode true t x = some t') : t'.inorder = insertSorted x t.inorder := by
  induction t generalizing t' with
  | null =>
    simp only [insertNode, ↓reduceIte] at inserted
    rw [updateHeight_inorder inserted]
    simp [inorder, insertSorted]
  | node element left right cached leftPart rightPart =>
    obtain ⟨orderedL, orderedR, below, above⟩ := ordered
    rcases lt_trichotomy x element with before | rfl | after
    · simp only [insertNode, before, ↓reduceIte] at inserted
      obtain ⟨left', insertedL, rest⟩ := Option.bind_eq_some_iff.mp inserted
      obtain ⟨rebuilt, step, updated⟩ := Option.bind_eq_some_iff.mp rest
      rw [updateHeight_inorder updated, insertRebalanceLeft_inorder step]
      simp only [inorder, leftPart orderedL insertedL]
      exact (insertSorted_left before above).symm
    · simp only [insertNode, lt_irrefl, ↓reduceIte] at inserted
      rw [updateHeight_inorder inserted]
      simp [inorder, insertSorted]
    · have notBefore : ¬ x < element := not_lt.mpr (le_of_lt after)
      simp only [insertNode, notBefore, gt_iff_lt, after, ↓reduceIte] at inserted
      obtain ⟨right', insertedR, rest⟩ := Option.bind_eq_some_iff.mp inserted
      obtain ⟨rebuilt, step, updated⟩ := Option.bind_eq_some_iff.mp rest
      rw [updateHeight_inorder updated, insertRebalanceRight_inorder step]
      simp only [inorder, rightPart orderedR insertedR]
      exact (insertSorted_right after below).symm

/-- One insertion into an AVL tree: no `NULL` is dereferenced, the result is an AVL tree and
its sequence is the old one with the element at its place. -/
theorem insertNode_avl {t : AvlTree} (avl : t.IsAvl) (x : Int) :
    ∃ t', insertNode true t x = some t' ∧ t'.IsAvl ∧
      t'.inorder = insertSorted x t.inorder := by
  obtain ⟨t', inserted, exact', balanced', -⟩ := insertNode_balance t x avl.exact avl.balanced
  have sequence := insertNode_inorder avl.ordered inserted
  refine ⟨t', inserted, ⟨?_, exact', balanced'⟩, sequence⟩
  rw [ordered_iff_sorted, sequence]
  exact insertSorted_sorted x ((ordered_iff_sorted t).mp avl.ordered)

/-- A run of insertions, the way the test program builds its tree. -/
def insertAll (t : AvlTree) : List Int → Option AvlTree
  | [] => some t
  | x :: rest => do
    let t ← insertNode true t x
    insertAll t rest

/-- A run of insertions from an AVL tree ends in an AVL tree that holds the old elements
and the inserted ones. -/
theorem insertAll_avl {t : AvlTree} (avl : t.IsAvl) (xs : List Int) :
    ∃ t', insertAll t xs = some t' ∧ t'.IsAvl ∧
      ∀ a, a ∈ t'.inorder ↔ a ∈ xs ∨ a ∈ t.inorder := by
  induction xs generalizing t with
  | nil => exact ⟨t, rfl, avl, by simp⟩
  | cons x rest tail =>
    obtain ⟨next, inserted, avlNext, sequence⟩ := insertNode_avl avl x
    obtain ⟨t', run, avl', members⟩ := tail avlNext
    refine ⟨t', by simp [insertAll, inserted, run], avl', ?_⟩
    intro a
    rw [members, sequence, mem_insertSorted, List.mem_cons]
    tauto

/-- The empty tree is an AVL tree. -/
theorem null_avl : null.IsAvl := ⟨trivial, trivial, trivial⟩

/-- Insertion is correct on every AVL tree, hence every tree built from the empty one by
insertions is an AVL tree that holds exactly the inserted elements. -/
theorem insertNode_correct :
    (∀ t : AvlTree, t.IsAvl → ∀ x : Int, ∃ t', insertNode true t x = some t' ∧ t'.IsAvl ∧
      t'.inorder = if x ∈ t.inorder then t.inorder else t.inorder.orderedInsert (· ≤ ·) x) ∧
    ∀ xs : List Int, ∃ t', insertAll null xs = some t' ∧ t'.IsAvl ∧
      ∀ a, a ∈ t'.inorder ↔ a ∈ xs := by
  refine ⟨fun t avl x => insertNode_avl avl x, fun xs => ?_⟩
  obtain ⟨t', run, avl', members⟩ := insertAll_avl null_avl xs
  refine ⟨t', run, avl', fun a => ?_⟩
  rw [members]
  simp [inorder]

end CodeLearning.Avl.AvlTree

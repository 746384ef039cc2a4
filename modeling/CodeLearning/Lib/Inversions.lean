import Mathlib.Algebra.BigOperators.Group.Finset.Piecewise
import Mathlib.Algebra.BigOperators.Group.Finset.Sigma
import Mathlib.Algebra.BigOperators.Group.List.Basic
import Mathlib.Algebra.GroupWithZero.Nat
import Mathlib.Data.List.Sort

/-!
# Inversions of lists

An inversion of a list is a pair of positions whose elements are in decreasing order. The inversions
of two lists one behind the other are those of each list and those across the two. The last are not
changed when the elements of each list are permuted, and merging two sorted lists counts them: when
an element of the second list is taken, all that is left of the first list is greater.
-/

namespace CodeLearning.Inversions

variable {α : Type} [LinearOrder α]

/-- The inversions of a list, as pairs of positions. -/
def inversionPairs (list : List α) : Finset (Nat × Nat) :=
  (Finset.range list.length ×ˢ Finset.range list.length).filter fun pair =>
    pair.1 < pair.2 ∧ ∃ x ∈ list[pair.1]?, ∃ y ∈ list[pair.2]?, y < x

/-- The number of inversions: for each element, the smaller ones behind it. -/
def count : List α → Nat
  | [] => 0
  | x :: list => list.countP (· < x) + count list

/-- The inversions across two lists. -/
def cross (left right : List α) : Nat := (left.map fun x => right.countP (· < x)).sum

/-- The inversions across two lists that a merge meets. -/
def mergeCount : List α → List α → Nat
  | [], _ => 0
  | _, [] => 0
  | x :: left, y :: right =>
    if x ≤ y then mergeCount left (y :: right)
    else (x :: left).length + mergeCount (x :: left) right

variable {left right left' right' list : List α} {x y : α}

/-- The inversions of two lists one behind the other. -/
theorem count_append : count (left ++ right) = count left + count right + cross left right := by
  induction left with
  | nil => simp [count, cross]
  | cons x left later =>
    rw [List.cons_append, count, count, later, List.countP_append, cross, cross, List.map_cons,
      List.sum_cons]
    omega

/-- The inversions across two lists do not depend on their orders. -/
theorem cross_perm (permL : left.Perm left') (permR : right.Perm right') :
    cross left right = cross left' right' := by
  have same : (fun x => right.countP (· < x)) = fun x => right'.countP (· < x) :=
    funext fun x => permR.countP_eq _
  rw [cross, cross, same]
  exact (permL.map _).sum_eq

/-- A list of `n` elements has at most `n * (n - 1) / 2` inversions. -/
theorem two_mul_count_le (list : List α) :
    2 * count list + list.length ≤ list.length * list.length := by
  induction list with
  | nil => simp [count]
  | cons x list later =>
    have first : list.countP (· < x) ≤ list.length := List.countP_le_length
    rw [count, List.length_cons, Nat.mul_add_one, Nat.add_one_mul list.length]
    omega

/-- An element that is not greater than any of the second list. -/
theorem cross_cons_of_le (least : ∀ y ∈ right, x ≤ y) :
    cross (x :: left) right = cross left right := by
  have none : right.countP (· < x) = 0 :=
    List.countP_eq_zero.mpr fun y mem => by simpa using least y mem
  rw [cross, List.map_cons, List.sum_cons, none, Nat.zero_add, cross]

/-- An element of the second list that is less than all of the first list. -/
theorem cross_cons_right (greater : ∀ x ∈ left, y < x) :
    cross left (y :: right) = left.length + cross left right := by
  induction left with
  | nil => rfl
  | cons x left later =>
    have here := greater x List.mem_cons_self
    have rest := later fun z mem => greater z (List.mem_cons_of_mem x mem)
    rw [cross] at rest ⊢
    rw [List.map_cons, List.sum_cons, rest, List.countP_cons_of_pos (by simpa using here), cross,
      cross, List.map_cons, List.sum_cons, List.length_cons]
    omega

/-- Merging two sorted lists counts the inversions across them. -/
theorem mergeCount_eq (sortedL : left.Pairwise (· ≤ ·)) (sortedR : right.Pairwise (· ≤ ·)) :
    mergeCount left right = cross left right := by
  fun_induction mergeCount left right with
  | case1 right => rfl
  | case2 left => simp [cross]
  | case3 x left y right le later =>
    have least : ∀ z ∈ y :: right, x ≤ z := by
      intro z mem
      rcases List.mem_cons.mp mem with rfl | mem
      · exact le
      · exact le.trans ((List.pairwise_cons.mp sortedR).1 z mem)
    rw [later (List.pairwise_cons.mp sortedL).2 sortedR, cross_cons_of_le least]
  | case4 x left y right greater later =>
    have less : y < x := not_le.mp greater
    have all : ∀ z ∈ x :: left, y < z := by
      intro z mem
      rcases List.mem_cons.mp mem with rfl | mem
      · exact less
      · exact less.trans_le ((List.pairwise_cons.mp sortedL).1 z mem)
    rw [later sortedL (List.pairwise_cons.mp sortedR).2, cross_cons_right all]

/-! ## Positions -/

/-- The positions of smaller elements. -/
theorem sum_smaller (list : List α) (x : α) :
    (∑ j ∈ Finset.range list.length, if ∃ y ∈ list[j]?, y < x then 1 else 0) =
      list.countP (· < x) := by
  induction list with
  | nil => simp
  | cons y list later =>
    rw [List.length_cons, Finset.sum_range_succ', List.countP_cons, ← later]
    simp

/-- The number of inversions is the number of the pairs. -/
theorem card_inversionPairs (list : List α) : (inversionPairs list).card = count list := by
  induction list with
  | nil => simp [inversionPairs, count]
  | cons x list later =>
    rw [inversionPairs, Finset.card_filter, Finset.sum_product] at later ⊢
    rw [List.length_cons, Finset.sum_range_succ', count, ← later, ← sum_smaller list x,
      Nat.add_comm]
    congr 1
    · rw [Finset.sum_range_succ']
      simp
    · refine Finset.sum_congr rfl fun i _ => ?_
      rw [Finset.sum_range_succ']
      simp

end CodeLearning.Inversions

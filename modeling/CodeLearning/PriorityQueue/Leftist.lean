import Mathlib.Algebra.Order.Group.Multiset

/-!
# The leftist heap

Heaps are values of a tree type, since every node of the program is reached through one pointer.
`merge` and `merge1` call each other; `merge1` reads the `npl` fields of both children, and `none`
is the run that reads one through `NULL`. A heap that was passed to `merge` is part of the result
and is not used any more.
-/

namespace CodeLearning.PriorityQueue.Leftist

/-- A pointer to `struct treenode`: `NULL`, or a node with its fields. -/
inductive Heap (α : Type) where
  /-- `NULL`. -/
  | null
  /-- A node. -/
  | node (element : α) (left right : Heap α) (npl : Int)
deriving DecidableEq

namespace Heap

variable {α : Type}

/-- Number of nodes. -/
def size : Heap α → Nat
  | null => 0
  | node _ left right _ => left.size + right.size + 1

/-- `h->npl`. -/
def npl? : Heap α → Option Int
  | null => none
  | node _ _ _ npl => some npl

end Heap

open Heap

variable {α : Type} [LinearOrder α]

/-- What `merge1` does once the right child is merged: the children are swapped when the left one
has the lower `npl`, and `npl` is set. -/
def finish (element : α) (left right : Heap α) : Option (Heap α) := do
  let nplLeft ← left.npl?
  let nplRight ← right.npl?
  let (left, right) := if nplLeft < nplRight then (right, left) else (left, right)
  let npl ← right.npl?
  return node element left right (npl + 1)

mutual

/-- `merge`. -/
def merge (h1 h2 : Heap α) : Option (Heap α) :=
  match h1, h2 with
  | null, h2 => some h2
  | h1, null => some h1
  | node e1 l1 r1 n1, node e2 l2 r2 n2 =>
    if e1 < e2 then merge1 (node e1 l1 r1 n1) (node e2 l2 r2 n2)
    else merge1 (node e2 l2 r2 n2) (node e1 l1 r1 n1)
termination_by (h1.size + h2.size, 1)
decreasing_by
  · exact Prod.Lex.right _ Nat.zero_lt_one
  · rw [Nat.add_comm]
    exact Prod.Lex.right _ Nat.zero_lt_one

/-- `merge1`. -/
def merge1 (h1 h2 : Heap α) : Option (Heap α) :=
  match h1 with
  | null => none
  | node element null right npl => some (node element h2 right npl)
  | node element left right _ => do
    let right ← merge right h2
    finish element left right
termination_by (h1.size + h2.size, 0)
decreasing_by
  apply Prod.Lex.left
  simp only [size]
  omega

end

/-- `insert1`, with the result of `malloc`. -/
def insert1 (malloc : Bool) (h : Heap α) (x : α) : Option (Heap α) :=
  if malloc then merge (node x null null 0) h else some h

/-- `deletemin1`. -/
def deletemin1 (h : Heap α) : Option (Heap α) :=
  match h with
  | null => some null
  | node _ left right _ => merge left right

/-! ## Leftist heaps -/

/-- The elements of a heap. -/
def elements : Heap α → Multiset α
  | null => 0
  | node element left right _ => element ::ₘ (elements left + elements right)

/-- The null path length, which is `-1` for `NULL`. -/
def nullPath : Heap α → Int
  | null => -1
  | node _ left right _ => min (nullPath left) (nullPath right) + 1

/-- No element of a heap is below another element. -/
def Bounds (x : α) (h : Heap α) : Prop := ∀ y ∈ elements h, x ≤ y

/-- Heap order, exact null path lengths, and the longer one on the left of every node. -/
def IsLeftist : Heap α → Prop
  | null => True
  | node element left right npl =>
    Bounds element left ∧ Bounds element right ∧ npl = min (nullPath left) (nullPath right) + 1 ∧
      nullPath right ≤ nullPath left ∧ IsLeftist left ∧ IsLeftist right

/-- A leftist heap. -/
abbrev LeftistHeap (α : Type) [LinearOrder α] := { h : Heap α // IsLeftist h }

section Merge

variable {h h1 h2 left right : Heap α} {x y : α} {npl : Int}

omit [LinearOrder α] in
/-- Null path lengths are `-1` at least. -/
theorem neg_one_le_nullPath (h : Heap α) : -1 ≤ nullPath h := by
  induction h with
  | null => exact Int.le_refl _
  | node _ left right _ boundL boundR =>
    simp only [nullPath]
    omega

omit [LinearOrder α] in
/-- Only `NULL` has the null path length `-1`. -/
theorem nullPath_eq (h : Heap α) : nullPath h = -1 ↔ h = null := by
  cases h with
  | null => exact iff_of_true rfl rfl
  | node _ left right _ =>
    have boundL := neg_one_le_nullPath left
    have boundR := neg_one_le_nullPath right
    refine iff_of_false ?_ (by simp)
    simp only [nullPath]
    omega

omit [LinearOrder α] in
/-- Only `NULL` has no elements. -/
theorem elements_eq_zero (h : Heap α) : elements h = 0 ↔ h = null := by
  cases h with
  | null => exact iff_of_true rfl rfl
  | node _ _ _ _ => exact iff_of_false (Multiset.cons_ne_zero) (by simp)

/-- `NULL` is a leftist heap. -/
theorem isLeftist_null : IsLeftist (null : Heap α) := trivial

/-- The stored length of a node is its null path length. -/
theorem IsLeftist.npl? (leftist : IsLeftist h) (present : h ≠ null) :
    h.npl? = some (nullPath h) := by
  cases h with
  | null => exact absurd rfl present
  | node _ _ _ _ =>
    obtain ⟨-, -, exact_, -, -, -⟩ := leftist
    rw [Heap.npl?, exact_, nullPath]

/-- The root is the least element. -/
theorem IsLeftist.bounds (leftist : IsLeftist (node x left right npl)) (below : y ≤ x) :
    Bounds y (node x left right npl) := by
  obtain ⟨boundL, boundR, -⟩ := leftist
  intro z mem
  simp only [elements, Multiset.mem_cons, Multiset.mem_add] at mem
  rcases mem with rfl | inL | inR
  · exact below
  · exact le_trans below (boundL z inL)
  · exact le_trans below (boundR z inR)

/-- `merge1` ends with a leftist heap when both children are there. -/
theorem finish_spec (boundL : Bounds x left) (boundR : Bounds x right) (leftistL : IsLeftist left)
    (leftistR : IsLeftist right) (presentL : left ≠ null) (presentR : right ≠ null) :
    ∃ h, finish x left right = some h ∧ IsLeftist h ∧
      elements h = x ::ₘ (elements left + elements right) := by
  unfold finish
  simp only [leftistL.npl? presentL, leftistR.npl? presentR, Option.bind_eq_bind,
    Option.bind_some]
  by_cases less : nullPath left < nullPath right
  · simp only [if_pos less, leftistL.npl? presentL, Option.bind_some]
    refine ⟨_, rfl, ⟨boundR, boundL, ?_, Int.le_of_lt less, leftistR, leftistL⟩, ?_⟩
    · rw [min_eq_right (Int.le_of_lt less)]
    · simp only [elements, add_comm]
  · have more : nullPath right ≤ nullPath left := Int.not_lt.mp less
    simp only [if_neg less, leftistR.npl? presentR, Option.bind_some]
    refine ⟨_, rfl, ⟨boundL, boundR, ?_, more, leftistL, leftistR⟩, rfl⟩
    rw [min_eq_right more]

/-- What `merge` promises of two heaps. -/
def Merges (h1 h2 : Heap α) : Prop :=
  ∃ h, merge h1 h2 = some h ∧ IsLeftist h ∧ elements h = elements h1 + elements h2

/-- `merge1` of a heap into one whose root is not above it, from `merge` of the right child. -/
theorem merge1_spec (leftist : IsLeftist (node x left right npl)) (leftist2 : IsLeftist h2)
    (bound : Bounds x h2) (present : h2 ≠ null) (merges : Merges right h2) :
    ∃ h, merge1 (node x left right npl) h2 = some h ∧ IsLeftist h ∧
      elements h = elements (node x left right npl) + elements h2 := by
  obtain ⟨boundL, boundR, exact_, more, leftistL, leftistR⟩ := leftist
  have total : elements (node x left right npl) + elements h2 =
      x ::ₘ (elements left + (elements right + elements h2)) := by
    simp only [elements, Multiset.cons_add, add_assoc]
  cases left with
  | null =>
    -- The longer null path is on the left, so the right child is `NULL` too.
    have missing : right = null := by
      have low := neg_one_le_nullPath right
      refine (nullPath_eq right).mp ?_
      simp only [nullPath] at more
      omega
    subst missing
    have high := neg_one_le_nullPath h2
    refine ⟨node x h2 null npl, by rw [merge1], ⟨bound, boundR, ?_, high, leftist2, trivial⟩, ?_⟩
    · rw [exact_, nullPath, min_self, min_eq_right high]
    · rw [total]
      simp only [elements, zero_add, add_zero]
  | node e l r n =>
    obtain ⟨right', merged, leftistM, elementsM⟩ := merges
    have boundM : Bounds x right' := by
      intro z mem
      rw [elementsM, Multiset.mem_add] at mem
      exact mem.elim (boundR z) (bound z)
    have presentM : right' ≠ null := by
      intro missing
      have empty : elements h2 ≤ 0 := by
        calc elements h2 ≤ elements right + elements h2 := Multiset.le_add_left _ _
          _ = 0 := by rw [← elementsM, missing, elements]
      exact present ((elements_eq_zero h2).mp (Multiset.le_zero.mp empty))
    obtain ⟨h, finished, leftistH, elementsH⟩ :=
      finish_spec boundL boundM leftistL leftistM (by simp) presentM
    refine ⟨h, ?_, leftistH, by rw [elementsH, elementsM, total]⟩
    rw [merge1, merged, Option.bind_eq_bind, Option.bind_some, finished]
    simp

/-- `merge` of leftist heaps reads nothing through `NULL` and returns a leftist heap with the
elements of both. -/
theorem merge_spec (leftist1 : IsLeftist h1) (leftist2 : IsLeftist h2) : Merges h1 h2 := by
  -- The induction is on the nodes of both heaps: each call drops the root with the lesser element.
  obtain ⟨n, total⟩ : ∃ n, h1.size + h2.size ≤ n := ⟨_, Nat.le_refl _⟩
  induction n generalizing h1 h2 with
  | zero =>
    cases h1 with
    | null => exact ⟨h2, by rw [merge], leftist2, by rw [elements, zero_add]⟩
    | node _ _ _ _ =>
      simp only [size] at total
      omega
  | succ n more =>
    cases h1 with
    | null => exact ⟨h2, by rw [merge], leftist2, by rw [elements, zero_add]⟩
    | node e1 l1 r1 n1 =>
      cases h2 with
      | null => exact ⟨node e1 l1 r1 n1, by rw [merge]; simp, leftist1, by simp [elements]⟩
      | node e2 l2 r2 n2 =>
        simp only [size] at total
        by_cases less : e1 < e2
        · have merges := more leftist1.2.2.2.2.2 leftist2 (by simp only [size]; omega)
          have bound := leftist2.bounds (le_of_lt less)
          obtain ⟨h, merged, rest⟩ := merge1_spec leftist1 leftist2 bound (by simp) merges
          exact ⟨h, by rw [merge, if_pos less, merged], rest⟩
        · have merges := more leftist2.2.2.2.2.2 leftist1 (by simp only [size]; omega)
          have bound := leftist1.bounds (not_lt.mp less)
          obtain ⟨h, merged, leftist, same⟩ := merge1_spec leftist2 leftist1 bound (by simp) merges
          refine ⟨h, by rw [merge, if_neg less, merged], leftist, ?_⟩
          rw [same, add_comm]

/-- `insert1` adds the element, or nothing when there is no memory. -/
theorem insert1_spec (malloc : Bool) (leftist : IsLeftist h) (x : α) :
    ∃ h', insert1 malloc h x = some h' ∧ IsLeftist h' ∧
      elements h' = if malloc then x ::ₘ elements h else elements h := by
  cases malloc with
  | false => exact ⟨h, rfl, leftist, rfl⟩
  | true =>
    have single : IsLeftist (node x null null 0) := by simp [IsLeftist, Bounds, elements, nullPath]
    obtain ⟨h', merged, leftist', same⟩ := merge_spec single leftist
    refine ⟨h', merged, leftist', ?_⟩
    rw [same]
    simp [elements]

/-- A multiset loses a minimum, if it has one. -/
def LosesMin (before after : Multiset α) : Prop :=
  (before = 0 ∧ after = 0) ∨ ∃ x, (∀ y ∈ before, x ≤ y) ∧ before = x ::ₘ after

/-- `deletemin1` removes one minimum. -/
theorem deletemin1_spec (leftist : IsLeftist h) :
    ∃ h', deletemin1 h = some h' ∧ IsLeftist h' ∧ LosesMin (elements h) (elements h') := by
  cases h with
  | null => exact ⟨null, rfl, trivial, .inl ⟨rfl, rfl⟩⟩
  | node x left right npl =>
    obtain ⟨h', merged, leftist', same⟩ :=
      merge_spec leftist.2.2.2.2.1 leftist.2.2.2.2.2
    refine ⟨h', merged, leftist', .inr ⟨x, leftist.bounds (le_refl x), ?_⟩⟩
    rw [same, elements]

end Merge

/-! ## Sequences of calls -/

/-- A call, on the heap variables of a program. -/
inductive Call (α : Type) where
  /-- `v = insert1(v, x)`. -/
  | insert1 (v : Nat) (x : α) (malloc : Bool)
  /-- `d = merge(v, w)`. -/
  | merge (d v w : Nat) (apart : v ≠ w)
  /-- `v = deletemin1(v)`. -/
  | deletemin1 (v : Nat)

/-- A call; the heaps that are merged are not used any more. -/
def perform (vars : Nat → Heap α) : Call α → Option (Nat → Heap α)
  | .insert1 v x malloc => do
    let h ← insert1 malloc (vars v) x
    return Function.update vars v h
  | .merge d v w _ => do
    let h ← merge (vars v) (vars w)
    return Function.update (Function.update (Function.update vars v null) w null) d h
  | .deletemin1 v => do
    let h ← deletemin1 (vars v)
    return Function.update vars v h

/-- A sequence of calls, from `NULL` in every variable. -/
def run (calls : List (Call α)) : Option (Nat → Heap α) := calls.foldlM perform fun _ => null

/-- What a call does to the multisets of elements. -/
def Effect (before after : Nat → Multiset α) : Call α → Prop
  | .insert1 v x malloc =>
    after = Function.update before v (if malloc then x ::ₘ before v else before v)
  | .merge d v w _ =>
    after = Function.update (Function.update (Function.update before v 0) w 0) d
      (before v + before w)
  | .deletemin1 v =>
    LosesMin (before v) (after v) ∧ after = Function.update before v (after v)

section Calls

variable {vars : Nat → Heap α}

omit [LinearOrder α] in
/-- The elements of the variables after an assignment. -/
theorem elements_update (v : Nat) (h : Heap α) :
    (fun u => elements (Function.update vars v h u)) =
      Function.update (fun u => elements (vars u)) v (elements h) := by
  funext u
  exact Function.apply_update (fun _ => elements) vars v h u

/-- The variables stay leftist when a leftist heap is assigned. -/
theorem leftist_update {h : Heap α} (leftist : ∀ u, IsLeftist (vars u)) (leftistH : IsLeftist h)
    (v : Nat) : ∀ u, IsLeftist (Function.update vars v h u) := by
  intro u
  by_cases here : u = v
  · rwa [here, Function.update_self]
  · rw [Function.update_of_ne here]
    exact leftist u

/-- A call on leftist heaps reads nothing through `NULL`, leaves them leftist and has its effect. -/
theorem perform_spec (leftist : ∀ u, IsLeftist (vars u)) (call : Call α) :
    ∃ vars', perform vars call = some vars' ∧ (∀ u, IsLeftist (vars' u)) ∧
      Effect (fun u => elements (vars u)) (fun u => elements (vars' u)) call := by
  cases call with
  | insert1 v x malloc =>
    obtain ⟨h, returned, leftistH, added⟩ := insert1_spec malloc (leftist v) x
    refine ⟨Function.update vars v h, by simp [perform, returned],
      leftist_update leftist leftistH v, ?_⟩
    rw [Effect, elements_update, added]
  | merge d v w apart =>
    obtain ⟨h, returned, leftistH, union⟩ := merge_spec (leftist v) (leftist w)
    refine ⟨Function.update (Function.update (Function.update vars v null) w null) d h,
      by simp [perform, returned],
      leftist_update (leftist_update (leftist_update leftist isLeftist_null v) isLeftist_null w)
        leftistH d, ?_⟩
    rw [Effect, elements_update, elements_update, elements_update, union]
    rfl
  | deletemin1 v =>
    obtain ⟨h, returned, leftistH, loses⟩ := deletemin1_spec (leftist v)
    refine ⟨Function.update vars v h, by simp [perform, returned],
      leftist_update leftist leftistH v, ?_⟩
    rw [Effect, elements_update]
    simp only [Function.update_self, and_true]
    exact loses

/-- Every sequence of calls runs to its end and leaves leftist heaps. -/
theorem foldlM_perform (leftist : ∀ u, IsLeftist (vars u)) (calls : List (Call α)) :
    ∃ vars', calls.foldlM perform vars = some vars' ∧ ∀ u, IsLeftist (vars' u) := by
  induction calls generalizing vars with
  | nil => exact ⟨vars, rfl, leftist⟩
  | cons call calls rest =>
    obtain ⟨vars1, performed, leftist1, -⟩ := perform_spec leftist call
    obtain ⟨vars2, ran, leftist2⟩ := rest leftist1
    exact ⟨vars2, by simp [performed, ran], leftist2⟩

/-- `merge` of two leftist heaps reads nothing through `NULL` and returns a leftist heap with the
elements of both. After every sequence of calls each heap is leftist, and the next call has its
effect: `deletemin1` removes exactly one minimum. -/
theorem leftist_priority_queue :
    (∀ h1 h2 : LeftistHeap α, ∃ h : LeftistHeap α, merge h1.val h2.val = some h.val ∧
      elements h.val = elements h1.val + elements h2.val) ∧
    ∀ calls : List (Call α), ∃ vars, run calls = some vars ∧ (∀ v, IsLeftist (vars v)) ∧
      ∀ call, ∃ vars', run (calls ++ [call]) = some vars' ∧ (∀ v, IsLeftist (vars' v)) ∧
        Effect (fun v => elements (vars v)) (fun v => elements (vars' v)) call := by
  refine ⟨fun h1 h2 => ?_, fun calls => ?_⟩
  · obtain ⟨h, merged, leftist, union⟩ := merge_spec h1.property h2.property
    exact ⟨⟨h, leftist⟩, merged, union⟩
  · obtain ⟨vars, ran, leftist⟩ := foldlM_perform (fun _ => isLeftist_null) calls
    refine ⟨vars, ran, leftist, fun call => ?_⟩
    obtain ⟨vars', performed, leftist', effect⟩ := perform_spec leftist call
    refine ⟨vars', ?_, leftist', effect⟩
    rw [run, List.foldlM_append, ran]
    simp [performed]

end Calls

end CodeLearning.PriorityQueue.Leftist

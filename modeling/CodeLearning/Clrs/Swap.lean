import CodeLearning.Lib.Rearrangement

/-!
# Exchanging two elements

The elements of the arrays that are sorted are of type `int`. `sorting.c` exchanges two of them by
three exclusive ors, without a variable for one of them; on one and the same element these would
leave zero, so that `swap` returns at once when its two pointers are equal. The files of `sort`
exchange them by way of `tmp`.
-/

namespace CodeLearning.Sorting

open Rearrangement

/-- Values of type `int` are ordered as the numbers that they stand for. -/
instance int32LinearOrder : LinearOrder Int32 where
  le_refl := Int32.le_refl
  le_trans _ _ _ := Int32.le_trans
  le_antisymm _ _ := Int32.le_antisymm
  le_total := Int32.le_total
  lt_iff_le_not_ge _ _ := Std.LawfulOrderLT.lt_iff _ _
  toDecidableLE := inferInstance
  toDecidableEq := inferInstance
  toDecidableLT := inferInstance

/-- `*p ^= *q`. -/
def xorAssign (a : List Int32) (p q : Nat) : Option (List Int32) := do
  let x ← a[p]?
  let y ← a[q]?
  store a p (x ^^^ y)

/-- `swap` of `sorting.c`, for two elements of an array. -/
def swap (a : List Int32) (p q : Nat) : Option (List Int32) :=
  if p = q then some a
  else do
    let a ← xorAssign a p q
    let a ← xorAssign a q p
    xorAssign a p q

/-- `swap` of the files of `sort`. -/
def tmpSwap (a : List Int32) (p q : Nat) : Option (List Int32) := do
  let tmp ← a[p]?
  let y ← a[q]?
  let a ← store a p y
  store a q tmp

variable {a : List Int32} {p q b e : Nat}

/-- An exclusive or of two elements. -/
theorem xorAssign_eq (insideP : p < a.length) (insideQ : q < a.length) :
    xorAssign a p q = some (a.set p (elements a p ^^^ elements a q)) := by
  rw [xorAssign, getElem?_eq_elements insideP, getElem?_eq_elements insideQ]
  exact store_eq insideP _

/-- The array with two elements exchanged. -/
def exchanged (a : List Int32) (p q : Nat) : List Int32 :=
  (a.set p (elements a q)).set q (elements a p)

/-- The length stays. -/
@[simp]
theorem length_exchanged (a : List Int32) (p q : Nat) : (exchanged a p q).length = a.length := by
  rw [exchanged, List.length_set, List.length_set]

/-- An element exchanged with itself. -/
theorem exchanged_self (inside : p < a.length) : exchanged a p p = a := by
  rw [exchanged, List.set_set, set_elements inside]

/-- `swap` exchanges two elements, which may be the same one. -/
theorem swap_eq (insideP : p < a.length) (insideQ : q < a.length) :
    swap a p q = some (exchanged a p q) := by
  rw [swap]
  by_cases same : p = q
  · rw [if_pos same, same, exchanged_self insideQ]
  · -- The second of the three leaves the first element in the place of the second one.
    have back : elements a q ^^^ (elements a p ^^^ elements a q) = elements a p := by
      rw [Int32.xor_comm (elements a p), ← Int32.xor_assoc, Int32.xor_self, Int32.zero_xor]
    have other : elements a p ^^^ elements a q ^^^ elements a p = elements a q := by
      rw [Int32.xor_comm (elements a p), Int32.xor_assoc, Int32.xor_self, Int32.xor_zero]
    rw [if_neg same, xorAssign_eq insideP insideQ]
    simp only [Option.bind_eq_bind, Option.bind_some]
    rw [xorAssign_eq (by simpa using insideQ) (by simpa using insideP)]
    simp only [Option.bind_some, elements_set insideP, Function.update_self,
      Function.update_of_ne (Ne.symm same), back]
    rw [xorAssign_eq (by simpa using insideP) (by simpa using insideQ)]
    have insideQ' : q < (a.set p (elements a p ^^^ elements a q)).length := by simpa using insideQ
    simp only [elements_set insideQ', elements_set insideP, Function.update_self,
      Function.update_of_ne same, other]
    rw [List.set_comm _ _ (Ne.symm same), List.set_set, exchanged]

/-- So does the `swap` by way of `tmp`. -/
theorem tmpSwap_eq (insideP : p < a.length) (insideQ : q < a.length) :
    tmpSwap a p q = some (exchanged a p q) := by
  rw [tmpSwap, getElem?_eq_elements insideP, getElem?_eq_elements insideQ]
  simp only [Option.bind_eq_bind, Option.bind_some, store_eq insideP]
  exact store_eq (by simpa using insideQ) _

/-- The elements after an exchange. -/
theorem elements_exchanged (insideP : p < a.length) (insideQ : q < a.length) :
    elements (exchanged a p q) =
      Function.update (Function.update (elements a) p (elements a q)) q (elements a p) := by
  rw [exchanged, elements_set (by simpa using insideQ), elements_set insideP]

/-- An exchange rearranges the array. -/
theorem arranges_exchanged (insideP : b ≤ p ∧ p < e) (insideQ : b ≤ q ∧ q < e)
    (high : e ≤ a.length) : Arranges b e a (exchanged a p q) := by
  by_cases same : p = q
  · rw [same, exchanged_self (by omega)]
    exact .refl b e a
  · exact arranges_exchange insideP insideQ same high

end CodeLearning.Sorting

import CodeLearning.Clrs.Swap
import CodeLearning.Lib.CountedLoop

/-!
# The exchange sorts

`bubblesort` and `selectsort` of `sorting.c` bring the least of the remaining elements to the front
of them, one after the other. `insertsort` and the two versions of `shellsort`, that of `sorting.c`
and that of `shellsort.c`, put each element into its place among the elements a distance apart that
stand before it; the last pass of `shellsort` has distance one and sorts whatever the passes before
it have left. An access outside of the array has no defined effect.
-/

namespace CodeLearning.Sorting

open Rearrangement CountedLoop

/-- The inner loop of `bubblesort`, from `j` down. -/
def bubbleLoop (i : Nat) : Nat → List Int32 → Option (List Int32)
  | 0, a => some a
  | j + 1, a =>
    if j + 1 > i then do
      let x ← a[j + 1]?
      let y ← a[j]?
      let a ← if x < y then swap a (j + 1) j else some a
      bubbleLoop i j a
    else some a

/-- `bubblesort`. -/
def bubblesort (a : List Int32) : Option (List Int32) :=
  let n := a.length
  (List.range' 0 (n - 1)).foldlM (fun a i => bubbleLoop i (n - 1) a) a

/-- The inner loop of `selectsort`, from `j` down, with `min`. -/
def selectLoop (a : List Int32) (i : Nat) : Nat → Nat → Option Nat
  | 0, min => some min
  | j + 1, min =>
    if j + 1 > i then do
      let x ← a[j + 1]?
      let y ← a[min]?
      selectLoop a i j (if x < y then j + 1 else min)
    else some min

/-- `selectsort`. -/
def selectsort (a : List Int32) : Option (List Int32) :=
  let n := a.length
  (List.range' 0 (n - 1)).foldlM (fun a i => do
    let min ← selectLoop a i (n - 1) i
    swap a i min) a

/-- The inner loop of `insertsort`, where `sep` is one, and of `shellsort`, where it is never zero:
the array and `j` when it ends. -/
def shiftLoop (sep : Nat) (tmp : Int32) (a : List Int32) (j : Nat) : Option (List Int32 × Nat) :=
  if 1 ≤ sep ∧ sep ≤ j then do
    let x ← a[j - sep]?
    if tmp < x then do
      let a ← store a j x
      shiftLoop sep tmp a (j - sep)
    else some (a, j)
  else some (a, j)
termination_by j

/-- A round of the loop over `i`. -/
def insertRound (sep : Nat) (a : List Int32) (i : Nat) : Option (List Int32) := do
  let tmp ← a[i]?
  let (a, j) ← shiftLoop sep tmp a i
  store a j tmp

/-- The loop over `i`, from `sep` on. -/
def insertPass (sep : Nat) (a : List Int32) : Option (List Int32) :=
  (List.range' sep (a.length - sep)).foldlM (insertRound sep) a

/-- `insertsort`. -/
def insertsort (a : List Int32) : Option (List Int32) := insertPass 1 a

/-- The loop of `shellsort` over the distances. -/
def shellLoop (sep : Nat) (a : List Int32) : Option (List Int32) :=
  if 1 ≤ sep then do
    let a ← insertPass sep a
    shellLoop (sep / 2) a
  else some a
termination_by sep

/-- `shellsort` of `sorting.c`. -/
def shellsort (a : List Int32) : Option (List Int32) := shellLoop (a.length / 2) a

/-- `shellsort` of `shellsort.c`, which has the same loops and leaves the inner one by `break`. -/
def Sort.shellsort (a : List Int32) : Option (List Int32) := shellLoop (a.length / 2) a

/-- The result of a sort is defined, and is the array sorted. -/
def Sorts (result : Option (List Int32)) (a : List Int32) : Prop :=
  ∃ sorted, result = some sorted ∧ sorted.Pairwise (· ≤ ·) ∧ sorted.Perm a

variable {a a' : List Int32} {i j sep : Nat} {tmp : Int32}

/-- The array is rearranged, and is in order in the end. -/
theorem sorts_of_arranges {result : Option (List Int32)} (ran : result = some a')
    (arranges : Arranges 0 a.length a a') (increasing : Increasing (elements a') 0 a.length) :
    Sorts result a := by
  rw [← arranges.length] at increasing
  exact ⟨a', ran, pairwise_of_increasing increasing, arranges.perm (Nat.le_refl _)⟩

/-! ## The least of the remaining elements -/

/-- The first elements are in their places: none that follows is less. -/
def Settled (f : Nat → Int32) (i n : Nat) : Prop := ∀ p < i, ∀ q, p ≤ q → q < n → f p ≤ f q

/-- What follows the settled elements may be rearranged. -/
theorem Settled.rearranged {f g : Nat → Int32} {n : Nat} (settled : Settled f i n)
    (rearranged : Rearranged i n f g) : Settled g i n := by
  intro p before q le high
  rw [rearranged.outside (Or.inl before)]
  by_cases early : q < i
  · rw [rearranged.outside (Or.inl early)]
    exact settled p before q le high
  · exact rearranged.forall (fun q low high => settled p before q (by omega) high) (by omega) high

/-- The least of the elements that follow is settled, too. -/
theorem Settled.next {f : Nat → Int32} {n : Nat} (settled : Settled f i n)
    (least : ∀ q, i ≤ q → q < n → f i ≤ f q) : Settled f (i + 1) n := by
  intro p before q le high
  by_cases last : p = i
  · rw [last] at le ⊢
    exact least q le high
  · exact settled p (by omega) q le high

/-- A loop over `i` of which each round brings the least of the remaining elements to the front of
them sorts the array. -/
theorem sorts_of_rounds (round : List Int32 → Nat → Option (List Int32)) (a : List Int32)
    (brings : ∀ now i, now.length = a.length → i + 1 < a.length → ∃ next,
      round now i = some next ∧ Arranges i a.length now next ∧
        ∀ q, i ≤ q → q < a.length → elements next i ≤ elements next q) :
    Sorts ((List.range' 0 (a.length - 1)).foldlM round a) a := by
  have loop : ∃ last, (List.range' 0 (a.length - 1)).foldlM round a = some last ∧
      Arranges 0 a.length a last ∧ Settled (elements last) (0 + (a.length - 1)) a.length := by
    refine foldlM_range'
      (fun i now => Arranges 0 a.length a now ∧ Settled (elements now) i a.length)
      ⟨.refl _ _ _, fun p before => by omega⟩ fun i now _ high inv => ?_
    obtain ⟨next, ran, moved, least⟩ := brings now i inv.1.length (by omega)
    exact ⟨next, ran, inv.1.trans (moved.mono (Nat.zero_le _) (Nat.le_refl _)),
      (inv.2.rearranged moved.rearranged).next least⟩
  obtain ⟨last, ran, arranges, settled⟩ := loop
  refine sorts_of_arranges ran arranges ?_
  intro p q _ le high
  by_cases before : p < 0 + (a.length - 1)
  · exact settled p before q le high
  · rw [show p = q by omega]

/-- The inner loop of `bubblesort` takes the least element along. -/
theorem bubbleLoop_spec (low : i ≤ j) (high : j < a.length)
    (least : ∀ q, j ≤ q → q < a.length → elements a j ≤ elements a q) :
    ∃ a', bubbleLoop i j a = some a' ∧ Arranges i a.length a a' ∧
      ∀ q, i ≤ q → q < a.length → elements a' i ≤ elements a' q := by
  induction j generalizing a with
  | zero =>
    obtain rfl : i = 0 := by omega
    exact ⟨a, rfl, .refl _ _ _, least⟩
  | succ j lower =>
    rw [bubbleLoop]
    by_cases more : j + 1 > i
    · rw [if_pos more, getElem?_eq_elements high, getElem?_eq_elements (by omega)]
      simp only [Option.bind_eq_bind, Option.bind_some]
      by_cases less : elements a (j + 1) < elements a j
      · have arranges : Arranges i a.length a (exchanged a (j + 1) j) :=
          arranges_exchanged ⟨by omega, high⟩ ⟨by omega, by omega⟩ (Nat.le_refl _)
        have length := arranges.length
        have least' : ∀ q, j ≤ q → q < (exchanged a (j + 1) j).length →
            elements (exchanged a (j + 1) j) j ≤ elements (exchanged a (j + 1) j) q := by
          intro q lowQ highQ
          rw [elements_exchanged high (by omega), Function.update_self]
          by_cases here : q = j
          · rw [here, Function.update_self]
          · rw [Function.update_of_ne here]
            by_cases next : q = j + 1
            · rw [next, Function.update_self]
              exact le_of_lt less
            · rw [Function.update_of_ne next]
              exact least q (by omega) (by omega)
        obtain ⟨a', ran, moved, done⟩ := lower (by omega) (by omega) least'
        rw [length] at moved done
        rw [if_pos less, swap_eq high (by omega)]
        exact ⟨a', ran, arranges.trans moved, done⟩
      · have least' : ∀ q, j ≤ q → q < a.length → elements a j ≤ elements a q := by
          intro q lowQ highQ
          by_cases here : q = j
          · rw [here]
          · exact le_trans (not_lt.mp less) (least q (by omega) highQ)
        rw [if_neg less]
        exact lower (by omega) (by omega) least'
    · obtain rfl : i = j + 1 := by omega
      rw [if_neg more]
      exact ⟨a, rfl, .refl _ _ _, least⟩

/-- `bubblesort` sorts. -/
theorem bubblesort_sorts (a : List Int32) : Sorts (bubblesort a) a := by
  refine sorts_of_rounds _ a fun now i length more => ?_
  have last : ∀ q, a.length - 1 ≤ q → q < now.length →
      elements now (a.length - 1) ≤ elements now q := by
    intro q low high
    rw [show q = a.length - 1 by omega]
  have spec := bubbleLoop_spec (show i ≤ a.length - 1 by omega) (by omega) last
  rwa [length] at spec

/-- The inner loop of `selectsort` finds the least element. -/
theorem selectLoop_spec {min : Nat} (low : i ≤ j) (high : j < a.length)
    (inside : i ≤ min ∧ min < a.length)
    (least : ∀ q, q = i ∨ j < q → q < a.length → elements a min ≤ elements a q) :
    ∃ min', selectLoop a i j min = some min' ∧ i ≤ min' ∧ min' < a.length ∧
      ∀ q, i ≤ q → q < a.length → elements a min' ≤ elements a q := by
  induction j generalizing min with
  | zero => exact ⟨min, rfl, inside.1, inside.2, fun q lowQ highQ => least q (by omega) highQ⟩
  | succ j lower =>
    rw [selectLoop]
    by_cases more : j + 1 > i
    · rw [if_pos more, getElem?_eq_elements high, getElem?_eq_elements inside.2]
      simp only [Option.bind_eq_bind, Option.bind_some]
      by_cases less : elements a (j + 1) < elements a min
      · rw [if_pos less]
        refine lower (by omega) (by omega) ⟨by omega, high⟩ fun q other highQ => ?_
        by_cases here : q = j + 1
        · rw [here]
        · exact le_of_lt (lt_of_lt_of_le less (least q (by omega) highQ))
      · rw [if_neg less]
        refine lower (by omega) (by omega) inside fun q other highQ => ?_
        by_cases here : q = j + 1
        · rw [here]
          exact not_lt.mp less
        · exact least q (by omega) highQ
    · rw [if_neg more]
      exact ⟨min, rfl, inside.1, inside.2, fun q lowQ highQ => least q (by omega) highQ⟩

/-- `selectsort` sorts. -/
theorem selectsort_sorts (a : List Int32) : Sorts (selectsort a) a := by
  refine sorts_of_rounds _ a fun now i length more => ?_
  have inside : i < now.length := by omega
  have first : ∀ q, q = i ∨ a.length - 1 < q → q < now.length →
      elements now i ≤ elements now q := by
    intro q here high
    rw [show q = i by omega]
  obtain ⟨min, found, low, high, least⟩ := selectLoop_spec (show i ≤ a.length - 1 by omega)
    (by omega) ⟨Nat.le_refl i, inside⟩ first
  rw [length] at high least
  have moved : Arranges i a.length now (exchanged now i min) :=
    arranges_exchanged ⟨Nat.le_refl _, by omega⟩ ⟨low, high⟩ (by omega)
  have front : elements (exchanged now i min) i = elements now min := by
    rw [elements_exchanged inside (by omega)]
    by_cases same : i = min
    · rw [same, Function.update_self]
    · rw [Function.update_of_ne same, Function.update_self]
  refine ⟨exchanged now i min, ?_, moved, ?_⟩
  · rw [found]
    exact swap_eq inside (by omega)
  · intro q lowQ highQ
    rw [front]
    exact moved.rearranged.forall (P := fun x => elements now min ≤ x) least lowQ highQ

/-! ## Insertion among the elements a distance apart -/

/-- The elements a distance apart do not decrease, before an index. -/
def GapSorted (f : Nat → Int32) (sep top : Nat) : Prop := ∀ p, p + sep < top → f p ≤ f (p + sep)

/-- The order around a hole at `j`: the elements a distance apart but those at the hole, those on
its two sides, and the element that is to be put there against the one behind it. -/
structure GapHole (f : Nat → Int32) (sep top j : Nat) (tmp : Int32) : Prop where
  /-- Elements apart from the hole. -/
  apart : ∀ p, p + sep < top → p ≠ j → p + sep ≠ j → f p ≤ f (p + sep)
  /-- The elements before and behind the hole. -/
  around : sep ≤ j → j + sep < top → f (j - sep) ≤ f (j + sep)
  /-- The element behind the hole is not less than the one that is to be put there. -/
  behind : j + sep < top → tmp ≤ f (j + sep)

/-- The element before the hole moves into it. -/
theorem GapHole.move {f : Nat → Int32} {top : Nat} (hole : GapHole f sep top j tmp)
    (positive : 1 ≤ sep) (low : sep ≤ j) (high : j < top) (less : tmp < f (j - sep)) :
    GapHole (Function.update f j (f (j - sep))) sep top (j - sep) tmp where
  apart p inside notHole notBefore := by
    by_cases here : p = j
    · rw [here] at inside ⊢
      rw [Function.update_self, Function.update_of_ne (by omega)]
      exact hole.around low inside
    · rw [Function.update_of_ne here, Function.update_of_ne (by omega)]
      exact hole.apart p inside here (by omega)
  around low' _ := by
    have before := hole.apart (j - sep - sep) (by omega) (by omega) (by omega)
    rw [show j - sep - sep + sep = j - sep by omega] at before
    rw [Function.update_of_ne (by omega), show j - sep + sep = j by omega, Function.update_self]
    exact before
  behind _ := by
    rw [show j - sep + sep = j by omega, Function.update_self]
    exact le_of_lt less

/-- The hole is filled. -/
theorem GapHole.fill {f : Nat → Int32} {top : Nat} (hole : GapHole f sep top j tmp)
    (positive : 1 ≤ sep) (before : sep ≤ j → f (j - sep) ≤ tmp) :
    GapSorted (Function.update f j tmp) sep top := by
  intro p inside
  by_cases here : p = j
  · rw [here] at inside ⊢
    rw [Function.update_self, Function.update_of_ne (by omega)]
    exact hole.behind inside
  · rw [Function.update_of_ne here]
    by_cases next : p + sep = j
    · rw [next, Function.update_self, show p = j - sep by omega]
      exact before (by omega)
    · rw [Function.update_of_ne next]
      exact hole.apart p inside here next

/-- The inner loop leaves a hole that the element fills. -/
theorem shiftLoop_spec {top : Nat} (positive : 1 ≤ sep) (high : j < top) (inside : top ≤ a.length)
    (hole : GapHole (elements a) sep top j tmp) :
    ∃ a' j', shiftLoop sep tmp a j = some (a', j') ∧ j' < top ∧ a'.length = a.length ∧
      Arranges 0 top (a.set j tmp) (a'.set j' tmp) ∧
      GapSorted (elements (a'.set j' tmp)) sep top := by
  induction j using Nat.strong_induction_on generalizing a with
  | _ j lower =>
    have filled : (sep ≤ j → elements a (j - sep) ≤ tmp) →
        GapSorted (elements (a.set j tmp)) sep top := by
      intro before
      rw [elements_set (by omega)]
      exact hole.fill positive before
    rw [shiftLoop]
    by_cases more : 1 ≤ sep ∧ sep ≤ j
    · rw [if_pos more, getElem?_eq_elements (by omega)]
      simp only [Option.bind_eq_bind, Option.bind_some]
      by_cases less : tmp < elements a (j - sep)
      · rw [if_pos less, store_eq (by omega)]
        simp only [Option.bind_some]
        have hole' := hole.move positive more.2 high less
        rw [← elements_set (by omega)] at hole'
        obtain ⟨a', j', ran, high', length, arranges, sorted⟩ :=
          lower (j - sep) (by omega) (by omega) (by simpa using inside) hole'
        rw [List.length_set] at length
        have moved : Arranges 0 top (a.set j tmp)
            ((a.set j (elements a (j - sep))).set (j - sep) tmp) :=
          arranges_move ⟨Nat.zero_le _, high⟩ ⟨Nat.zero_le _, by omega⟩ (by omega) inside tmp
        exact ⟨a', j', ran, high', length, moved.trans arranges, sorted⟩
      · rw [if_neg less]
        exact ⟨a, j, rfl, high, rfl, .refl _ _ _, filled fun _ => not_lt.mp less⟩
    · rw [if_neg more]
      exact ⟨a, j, rfl, high, rfl, .refl _ _ _, filled fun low => absurd ⟨positive, low⟩ more⟩

/-- A round puts one more element into its place. -/
theorem insertRound_spec (positive : 1 ≤ sep) (inside : i < a.length)
    (sorted : GapSorted (elements a) sep i) :
    ∃ a', insertRound sep a i = some a' ∧ Arranges 0 (i + 1) a a' ∧
      GapSorted (elements a') sep (i + 1) := by
  have hole : GapHole (elements a) sep (i + 1) i (elements a i) :=
    ⟨fun p high _ notLast => sorted p (by omega), fun _ high => by omega, fun high => by omega⟩
  obtain ⟨a', j, ran, high, length, arranges, sorted'⟩ :=
    shiftLoop_spec positive (Nat.lt_succ_self i) inside hole
  rw [set_elements inside] at arranges
  refine ⟨a'.set j (elements a i), ?_, arranges, sorted'⟩
  rw [insertRound, getElem?_eq_elements inside]
  simp only [Option.bind_eq_bind, Option.bind_some, ran]
  exact store_eq (by omega) _

/-- A pass orders the elements a distance apart. -/
theorem insertPass_spec (positive : 1 ≤ sep) (a : List Int32) :
    ∃ a', insertPass sep a = some a' ∧ Arranges 0 a.length a a' ∧
      GapSorted (elements a') sep a.length := by
  have start : GapSorted (elements a) sep sep := fun p high => by omega
  have loop : ∃ a', insertPass sep a = some a' ∧ Arranges 0 a.length a a' ∧
      GapSorted (elements a') sep (sep + (a.length - sep)) := by
    refine foldlM_range' (fun i now => Arranges 0 a.length a now ∧ GapSorted (elements now) sep i)
      ⟨.refl _ _ _, start⟩ fun i now low high inv => ?_
    have inside : i < now.length := by
      rw [inv.1.length]
      omega
    obtain ⟨next, ran, moved, sorted⟩ := insertRound_spec positive inside inv.2
    have wider := moved.mono (Nat.le_refl 0) (show i + 1 ≤ a.length by omega)
    exact ⟨next, ran, inv.1.trans wider, sorted⟩
  obtain ⟨a', ran, arranges, sorted⟩ := loop
  exact ⟨a', ran, arranges, fun p high => sorted p (by omega)⟩

/-- With distance one a pass sorts. -/
theorem increasing_of_gapSorted {f : Nat → Int32} {n : Nat} (sorted : GapSorted f 1 n) :
    Increasing f 0 n :=
  increasing_of_neighbours fun p _ high => sorted p high

/-- `insertsort` sorts. -/
theorem insertsort_sorts (a : List Int32) : Sorts (insertsort a) a := by
  obtain ⟨a', ran, arranges, sorted⟩ := insertPass_spec (Nat.le_refl 1) a
  exact sorts_of_arranges ran arranges (increasing_of_gapSorted sorted)

/-- The passes of `shellsort` rearrange the array, and the last one sorts it. -/
theorem shellLoop_spec (sep : Nat) (a : List Int32) :
    ∃ a', shellLoop sep a = some a' ∧ Arranges 0 a.length a a' ∧
      (1 ≤ sep → Increasing (elements a') 0 a.length) := by
  induction sep using Nat.strong_induction_on generalizing a with
  | _ sep smaller =>
    rw [shellLoop]
    by_cases positive : 1 ≤ sep
    · obtain ⟨first, ran, arranges, sorted⟩ := insertPass_spec positive a
      obtain ⟨last, ran', arranges', increasing⟩ := smaller (sep / 2) (by omega) first
      rw [arranges.length] at arranges' increasing
      rw [if_pos positive, ran]
      refine ⟨last, ran', arranges.trans arranges', fun _ => ?_⟩
      by_cases more : 1 ≤ sep / 2
      · exact increasing more
      · -- This was the last pass: its distance is one, and what follows does nothing.
        obtain rfl : sep = 1 := by omega
        rw [shellLoop, if_neg more] at ran'
        rw [← Option.some.inj ran']
        exact increasing_of_gapSorted sorted
    · rw [if_neg positive]
      exact ⟨a, rfl, .refl _ _ _, fun absurdly => absurd absurdly positive⟩

/-- `shellsort` sorts; an array of at most one element needs no pass. -/
theorem shellsort_sorts (a : List Int32) : Sorts (shellsort a) a := by
  obtain ⟨a', ran, arranges, increasing⟩ := shellLoop_spec (a.length / 2) a
  refine sorts_of_arranges ran arranges ?_
  by_cases short : a.length ≤ 1
  · exact increasing_of_short short
  · exact increasing (by omega)

/-- Two sorts of one array have the same result. -/
theorem Sorts.same {result result' : Option (List Int32)} {sorted : List Int32}
    (sorts : Sorts result a) (here : result = some sorted) (sorts' : Sorts result' a) :
    result' = some sorted := by
  obtain ⟨first, ran, increasing, perm⟩ := sorts
  obtain ⟨second, ran', increasing', perm'⟩ := sorts'
  obtain rfl := Option.some.inj (ran.symm.trans here)
  rw [ran', sorted_unique increasing' increasing (perm'.trans perm.symm)]

/-- For every array, `bubblesort`, `selectsort`, `insertsort` and the two versions of `shellsort`
end with the same array: that array sorted. -/
theorem exchange_sorts_agree (a : List Int32) :
    ∃ sorted, bubblesort a = some sorted ∧ selectsort a = some sorted ∧
      insertsort a = some sorted ∧ shellsort a = some sorted ∧ Sort.shellsort a = some sorted ∧
      sorted.Pairwise (· ≤ ·) ∧ sorted.Perm a := by
  obtain ⟨sorted, ran, increasing, perm⟩ := bubblesort_sorts a
  exact ⟨sorted, ran, (bubblesort_sorts a).same ran (selectsort_sorts a),
    (bubblesort_sorts a).same ran (insertsort_sorts a),
    (bubblesort_sorts a).same ran (shellsort_sorts a),
    (bubblesort_sorts a).same ran (shellsort_sorts a), increasing, perm⟩

end CodeLearning.Sorting

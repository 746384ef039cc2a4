import CodeLearning.Clrs.Swap
import Mathlib.Data.Nat.Count

/-!
# The hole of quicksort

`quicksort` of `sorting.c` takes the first element of a range out of the array and moves the hole
that it leaves: from the left end to an element that is less, from there to one that is greater, and
so on until the two indices meet. Where they meet, and the first element is put, is decided by the
numbers of elements that are less and greater (`Passes`).
-/

namespace CodeLearning.Sorting

open Rearrangement

/-- What stops a run. -/
inductive Fault where
  /-- An access outside of the array. -/
  | outside
  /-- A sum that is not an `int`. -/
  | overflow
  deriving DecidableEq, Repr

/-- A result, or the fault of having none. -/
def orFault {ε α : Type} (fault : ε) : Option α → Except ε α
  | some x => .ok x
  | none => .error fault

/-- Where the hole is: at `i`, or at `j`. -/
inductive Hole where
  /-- `a[i]` is free, and `j` moves down. -/
  | left
  /-- `a[j]` is free, and `i` moves up. -/
  | right
  deriving DecidableEq, Repr

/-- The loops of `quicksort`: the array and `i` when `i < j` no longer holds. With the hole on the
left side, the run is in the first of the inner loops, which ends with the first `if`; with the hole
on the right side, in the second one. -/
def partitionLoop (tmp : Int32) :
    Hole → List Int32 → Nat → Nat → Except Fault (List Int32 × Nat)
  | .left, a, i, j =>
    if i < j then do
      let x ← orFault .outside a[j]?
      if x ≥ tmp then partitionLoop tmp .left a i (j - 1)
      else do
        let a ← orFault .outside (store a i x)
        partitionLoop tmp .right a (i + 1) j
    else .ok (a, i)
  | .right, a, i, j =>
    if i < j then do
      let x ← orFault .outside a[i]?
      if x ≤ tmp then partitionLoop tmp .right a (i + 1) j
      else do
        let a ← orFault .outside (store a j x)
        partitionLoop tmp .left a i (j - 1)
    else .ok (a, i)
termination_by _ _ i j => j - i

/-- `quicksort` up to the test of the length: the array and `i`. -/
def partition (a : List Int32) (b e : Nat) : Except Fault (List Int32 × Nat) := do
  let tmp ← orFault .outside a[b]?
  -- When `e` is zero, `j` is less than zero, and the loops end at once as they do here.
  let (a, i) ← partitionLoop tmp .left a b (e - 1)
  let a ← orFault .outside (store a i tmp)
  return (a, i)

/-- The step after a result. -/
theorem except_ok_bind {ε α β : Type} (x : α) (next : α → Except ε β) :
    ((.ok x : Except ε α) >>= next) = next x := rfl

/-- A step that has succeeded. -/
theorem bind_ok {ε α β : Type} {first : Except ε α} {next : α → Except ε β} {result : β}
    (ran : first >>= next = .ok result) : ∃ x, first = .ok x ∧ next x = .ok result := by
  cases first with
  | error fault => cases ran
  | ok x => exact ⟨x, rfl, ran⟩

/-- The index only moves up, and not past the other one. -/
theorem partitionLoop_index {tmp : Int32} {hole : Hole} {a a' : List Int32} {i j k : Nat}
    (ran : partitionLoop tmp hole a i j = .ok (a', k)) : i ≤ k ∧ (k ≤ j ∨ k = i) := by
  induction size : j - i using Nat.strongRecOn generalizing hole a i j with
  | ind size smaller =>
    by_cases more : i < j
    · cases hole with
      | left =>
        rw [partitionLoop, if_pos more] at ran
        obtain ⟨x, _, rest⟩ := bind_ok ran
        by_cases stays : x ≥ tmp
        · rw [if_pos stays] at rest
          have index := smaller (j - 1 - i) (by omega) rest rfl
          omega
        · rw [if_neg stays] at rest
          obtain ⟨moved, _, rest⟩ := bind_ok rest
          have index := smaller (j - (i + 1)) (by omega) rest rfl
          omega
      | right =>
        rw [partitionLoop, if_pos more] at ran
        obtain ⟨x, _, rest⟩ := bind_ok ran
        by_cases stays : x ≤ tmp
        · rw [if_pos stays] at rest
          have index := smaller (j - (i + 1)) (by omega) rest rfl
          omega
        · rw [if_neg stays] at rest
          obtain ⟨moved, _, rest⟩ := bind_ok rest
          have index := smaller (j - 1 - i) (by omega) rest rfl
          omega
    · have ended : partitionLoop tmp hole a i j = .ok (a, i) := by
        cases hole with
        | left => rw [partitionLoop, if_neg more]
        | right => rw [partitionLoop, if_neg more]
      rw [ended] at ran
      obtain ⟨rfl, rfl⟩ := Prod.mk.inj (Except.ok.inj ran)
      exact ⟨Nat.le_refl _, Or.inr rfl⟩

/-- The index is in the range, or at its start when it is empty. -/
theorem partition_index {a a' : List Int32} {b e i : Nat} (ran : partition a b e = .ok (a', i)) :
    b ≤ i ∧ (i < e ∨ i = b) := by
  obtain ⟨tmp, _, rest⟩ := bind_ok ran
  obtain ⟨⟨a1, k⟩, loop, rest⟩ := bind_ok rest
  obtain ⟨a2, _, rest⟩ := bind_ok rest
  obtain ⟨_, rfl⟩ := Prod.mk.inj (Except.ok.inj rest)
  have index := partitionLoop_index loop
  omega

/-! ## Where the first element lands -/

section Counts

variable {P : Nat → Prop} [DecidablePred P] {b b' e e' : Nat}

/-- How many numbers of a range have a property. -/
def countIn (P : Nat → Prop) [DecidablePred P] (b e : Nat) : Nat := Nat.count P e - Nat.count P b

/-- The range grows at its upper end. -/
theorem countIn_succ (le : b ≤ e) : countIn P b (e + 1) = countIn P b e + if P e then 1 else 0 := by
  have grows : Nat.count P b ≤ Nat.count P e := Nat.count_monotone P le
  rw [countIn, countIn, Nat.count_succ]
  omega

/-- The range grows at its lower end. -/
theorem countIn_pred (less : b < e) :
    countIn P b e = countIn P (b + 1) e + if P b then 1 else 0 := by
  have grows : Nat.count P (b + 1) ≤ Nat.count P e := Nat.count_monotone P less
  rw [Nat.count_succ] at grows
  rw [countIn, countIn, Nat.count_succ]
  omega

/-- A greater range has at least as many. -/
theorem countIn_mono (low : b' ≤ b) (high : e ≤ e') : countIn P b e ≤ countIn P b' e' := by
  have grows : Nat.count P b' ≤ Nat.count P b := Nat.count_monotone P low
  have grows' : Nat.count P e ≤ Nat.count P e' := Nat.count_monotone P high
  unfold countIn
  omega

/-- An empty range has none. -/
theorem countIn_self (b : Nat) : countIn P b b = 0 := Nat.sub_self _

end Counts

/-- More elements from `m` on are less than the first one than there are greater ones before `m`. -/
def Passes (f : Nat → Int32) (b e m : Nat) : Prop :=
  countIn (fun p => f b < f p) b m < countIn (fun p => f p < f b) m e

instance (f : Nat → Int32) (b e m : Nat) : Decidable (Passes f b e m) :=
  inferInstanceAs (Decidable (_ < _))

/-- The range is parted at `k`, which is where the first element lands. -/
structure Landed (f now : Nat → Int32) (b e k : Nat) : Prop where
  /-- The index is in the range. -/
  inside : b ≤ k ∧ k < e
  /-- Less elements stand before it, and greater ones behind it. -/
  parted : Parted now b e k
  /-- It is as far to the right as the numbers of less and greater elements say. -/
  passes : ∀ m, b < m → (m ≤ k ↔ Passes f b e m)

/-- What the loops have done before `i` and behind `j`. -/
structure Sides (f now : Nat → Int32) (b e i j : Nat) : Prop where
  /-- The range that is left. -/
  inside : b ≤ i ∧ i ≤ j ∧ j < e
  /-- The elements before it. -/
  before : ∀ p, b ≤ p → p < i → now p ≤ f b
  /-- The elements behind it. -/
  behind : ∀ p, j < p → p < e → f b ≤ now p
  /-- The elements between its ends have not been moved. -/
  between : ∀ p, i < p → p < j → now p = f p

/-- The first inner loop: the hole is at `i`. Unless it is still at the start, a greater element has
been moved from there. -/
structure HoleLeft (f now : Nat → Int32) (b e i j : Nat) : Prop extends Sides f now b e i j where
  /-- The element at `j`. -/
  last : i < j → now j = f j
  /-- The element that was in the hole. -/
  moved : i = b ∨ f b < f i
  /-- As many greater elements have been moved as less ones. -/
  balance : countIn (fun p => f b < f p) b (i + 1) = countIn (fun p => f p < f b) (j + 1) e

/-- The second inner loop: the hole is at `j`, and a less element has been moved from there. -/
structure HoleRight (f now : Nat → Int32) (b e i j : Nat) : Prop extends Sides f now b e i j where
  /-- The element at `i`. -/
  first : i < j → now i = f i
  /-- The element that was in the hole. -/
  moved : f j < f b
  /-- One more less element has been moved than greater ones. -/
  balance : countIn (fun p => f p < f b) j e = countIn (fun p => f b < f p) b i + 1

section Steps

variable {f now : Nat → Int32} {b e i j : Nat}

/-- The first inner loop leaves an element where it is. -/
theorem HoleLeft.skip (hole : HoleLeft f now b e i j) (more : i < j) (stays : now j ≥ f b) :
    HoleLeft f now b e i (j - 1) where
  inside := by
    have inside := hole.inside
    omega
  before := hole.before
  behind p low high := by
    by_cases here : p = j
    · rw [here]
      exact stays
    · exact hole.behind p (by omega) high
  between p low high := hole.between p low (by omega)
  last less := hole.between (j - 1) (by omega) (by omega)
  moved := hole.moved
  balance := by
    have inside := hole.inside
    have notLess : ¬ f j < f b := by
      rw [← hole.last more]
      exact not_lt.mpr stays
    have one : countIn (fun p => f p < f b) j e = countIn (fun p => f p < f b) (j + 1) e := by
      rw [countIn_pred (by omega), if_neg notLess, Nat.add_zero]
    rw [hole.balance, Nat.sub_add_cancel (by omega), one]

/-- It moves a less element into the hole. -/
theorem HoleLeft.move (hole : HoleLeft f now b e i j) (more : i < j) (less : now j < f b) :
    HoleRight f (Function.update now i (now j)) b e (i + 1) j where
  inside := by
    have inside := hole.inside
    omega
  before p low high := by
    by_cases here : p = i
    · rw [here, Function.update_self]
      exact le_of_lt less
    · rw [Function.update_of_ne here]
      exact hole.before p low (by omega)
  behind p low high := by
    rw [Function.update_of_ne (by omega)]
    exact hole.behind p low high
  between p low high := by
    rw [Function.update_of_ne (by omega)]
    exact hole.between p (by omega) high
  first less' := by
    rw [Function.update_of_ne (by omega)]
    exact hole.between (i + 1) (by omega) less'
  moved := by
    rw [← hole.last more]
    exact less
  balance := by
    have inside := hole.inside
    rw [hole.last more] at less
    rw [countIn_pred (by omega), if_pos less, hole.balance]

/-- The second inner loop leaves an element where it is. -/
theorem HoleRight.skip (hole : HoleRight f now b e i j) (more : i < j) (stays : now i ≤ f b) :
    HoleRight f now b e (i + 1) j where
  inside := by
    have inside := hole.inside
    omega
  before p low high := by
    by_cases here : p = i
    · rw [here]
      exact stays
    · exact hole.before p low (by omega)
  behind := hole.behind
  between p low high := hole.between p (by omega) high
  first less := hole.between (i + 1) (by omega) less
  moved := hole.moved
  balance := by
    have inside := hole.inside
    have notGreater : ¬ f b < f i := by
      rw [← hole.first more]
      exact not_lt.mpr stays
    rw [hole.balance, countIn_succ inside.1, if_neg notGreater, Nat.add_zero]

/-- It moves a greater element into the hole. -/
theorem HoleRight.move (hole : HoleRight f now b e i j) (more : i < j) (greater : f b < now i) :
    HoleLeft f (Function.update now j (now i)) b e i (j - 1) where
  inside := by
    have inside := hole.inside
    omega
  before p low high := by
    rw [Function.update_of_ne (by omega)]
    exact hole.before p low high
  behind p low high := by
    by_cases here : p = j
    · rw [here, Function.update_self]
      exact le_of_lt greater
    · rw [Function.update_of_ne here]
      exact hole.behind p (by omega) high
  between p low high := by
    rw [Function.update_of_ne (by omega)]
    exact hole.between p low (by omega)
  last less := by
    rw [Function.update_of_ne (by omega)]
    exact hole.between (j - 1) less (by omega)
  moved := by
    rw [← hole.first more]
    exact Or.inr greater
  balance := by
    have inside := hole.inside
    rw [hole.first more] at greater
    rw [Nat.sub_add_cancel (by omega), hole.balance, countIn_succ inside.1, if_pos greater]

/-- The first element is put between the two sides. -/
theorem Sides.parted (sides : Sides f now b e i i) :
    Parted (Function.update now i (f b)) b e i where
  before p low high := by
    rw [Function.update_self, Function.update_of_ne (by omega)]
    exact sides.before p low high
  behind p low high := by
    rw [Function.update_self, Function.update_of_ne (by omega)]
    exact sides.behind p low high

/-- The indices meet at the hole on the left side. -/
theorem HoleLeft.landed (hole : HoleLeft f now b e i i) :
    Landed f (Function.update now i (f b)) b e i where
  inside := ⟨hole.inside.1, hole.inside.2.2⟩
  parted := hole.parted
  passes m low := by
    have inside := hole.inside
    have balance := hole.balance
    unfold Passes
    constructor
    · intro le
      have moved : f b < f i := by
        rcases hole.moved with start | moved
        · omega
        · exact moved
      rw [countIn_succ inside.1, if_pos moved] at balance
      have fewer := countIn_mono (P := fun p => f b < f p) (Nat.le_refl b) le
      have more := countIn_mono (P := fun p => f p < f b) (show m ≤ i + 1 by omega) (Nat.le_refl e)
      omega
    · intro passes
      by_contra behind
      have more := countIn_mono (P := fun p => f b < f p) (Nat.le_refl b) (show i + 1 ≤ m by omega)
      have fewer := countIn_mono (P := fun p => f p < f b) (show i + 1 ≤ m by omega) (Nat.le_refl e)
      omega

/-- The indices meet at the hole on the right side. -/
theorem HoleRight.landed (hole : HoleRight f now b e i i) :
    Landed f (Function.update now i (f b)) b e i where
  inside := ⟨hole.inside.1, hole.inside.2.2⟩
  parted := hole.parted
  passes m low := by
    have inside := hole.inside
    have balance := hole.balance
    unfold Passes
    constructor
    · intro le
      have fewer := countIn_mono (P := fun p => f b < f p) (Nat.le_refl b) le
      have more := countIn_mono (P := fun p => f p < f b) le (Nat.le_refl e)
      omega
    · intro passes
      by_contra behind
      have more := countIn_mono (P := fun p => f b < f p) (Nat.le_refl b) (show i ≤ m by omega)
      have fewer := countIn_mono (P := fun p => f p < f b) (show i + 1 ≤ m by omega) (Nat.le_refl e)
      rw [countIn_pred inside.2.2, if_pos hole.moved] at balance
      omega

end Steps

/-! ## The loops -/

section Loops

variable {f : Nat → Int32} {a a' : List Int32} {b e i j m : Nat} {tmp : Int32}

/-- The state of the loops, by the place of the hole. -/
def Moving (f : Nat → Int32) (b e : Nat) (hole : Hole) (now : Nat → Int32) (i j : Nat) : Prop :=
  match hole with
  | .left => HoleLeft f now b e i j
  | .right => HoleRight f now b e i j

/-- The index of the hole. -/
def Hole.index (hole : Hole) (i j : Nat) : Nat :=
  match hole with
  | .left => i
  | .right => j

/-- The loops end where the first element lands. -/
theorem partitionLoop_spec {hole : Hole} (moving : Moving f b e hole (elements a) i j)
    (high : e ≤ a.length) : ∃ a' k, partitionLoop (f b) hole a i j = .ok (a', k) ∧
      a'.length = a.length ∧ Arranges b e (a.set (hole.index i j) (f b)) (a'.set k (f b)) ∧
      Landed f (elements (a'.set k (f b))) b e k := by
  induction size : j - i using Nat.strongRecOn generalizing hole a i j with
  | ind size smaller =>
    cases hole with
    | left =>
      have inv : HoleLeft f (elements a) b e i j := moving
      have inside := inv.inside
      rw [partitionLoop]
      by_cases more : i < j
      · rw [if_pos more, getElem?_eq_elements (by omega)]
        by_cases stays : elements a j ≥ f b
        · have next : Moving f b e .left (elements a) i (j - 1) := inv.skip more stays
          rw [orFault, except_ok_bind, if_pos stays]
          exact smaller (j - 1 - i) (by omega) next high rfl
        · have next : Moving f b e .right (elements (a.set i (elements a j))) (i + 1) j := by
            rw [elements_set (by omega)]
            exact inv.move more (not_le.mp stays)
          have moved : Arranges b e (a.set i (f b)) ((a.set i (elements a j)).set j (f b)) :=
            arranges_move ⟨inside.1, by omega⟩ ⟨by omega, inside.2.2⟩ (by omega) high (f b)
          obtain ⟨a', k, ran, length, arranges, landed⟩ :=
            smaller (j - (i + 1)) (by omega) next (by rwa [List.length_set]) rfl
          rw [List.length_set] at length
          rw [orFault, except_ok_bind, if_neg stays, store_eq (by omega)]
          exact ⟨a', k, ran, length, moved.trans arranges, landed⟩
      · have meet : i = j := by omega
        rw [if_neg more]
        rw [← meet] at inv
        have landed := inv.landed
        rw [← elements_set (by omega)] at landed
        exact ⟨a, i, rfl, rfl, .refl b e _, landed⟩
    | right =>
      have inv : HoleRight f (elements a) b e i j := moving
      have inside := inv.inside
      rw [partitionLoop]
      by_cases more : i < j
      · rw [if_pos more, getElem?_eq_elements (by omega)]
        by_cases stays : elements a i ≤ f b
        · have next : Moving f b e .right (elements a) (i + 1) j := inv.skip more stays
          rw [orFault, except_ok_bind, if_pos stays]
          exact smaller (j - (i + 1)) (by omega) next high rfl
        · have next : Moving f b e .left (elements (a.set j (elements a i))) i (j - 1) := by
            rw [elements_set (by omega)]
            exact inv.move more (not_le.mp stays)
          have moved : Arranges b e (a.set j (f b)) ((a.set j (elements a i)).set i (f b)) :=
            arranges_move ⟨by omega, inside.2.2⟩ ⟨inside.1, by omega⟩ (by omega) high (f b)
          obtain ⟨a', k, ran, length, arranges, landed⟩ :=
            smaller (j - 1 - i) (by omega) next (by rwa [List.length_set]) rfl
          rw [List.length_set] at length
          rw [orFault, except_ok_bind, if_neg stays, store_eq (by omega)]
          exact ⟨a', k, ran, length, moved.trans arranges, landed⟩
      · have meet : i = j := by omega
        rw [if_neg more]
        rw [← meet] at inv ⊢
        have landed := inv.landed
        rw [← elements_set (by omega)] at landed
        exact ⟨a, i, rfl, rfl, .refl b e _, landed⟩

/-- Before the loops the hole is at the start of the range. -/
theorem holeLeft_start (f : Nat → Int32) (less : b < e) : HoleLeft f f b e b (e - 1) where
  inside := by omega
  before p low high := absurd low (Nat.not_le.mpr high)
  behind p low high := by omega
  between p _ _ := rfl
  last _ := rfl
  moved := Or.inl rfl
  balance := by
    have notGreater : ¬ f b < f b := lt_irrefl _
    rw [countIn_succ (Nat.le_refl b), if_neg notGreater, countIn_self,
      Nat.sub_add_cancel (by omega), countIn_self]

/-- A range of at least one element is parted where its first element lands. -/
theorem partition_spec (less : b < e) (high : e ≤ a.length) :
    ∃ a' k, partition a b e = .ok (a', k) ∧ Arranges b e a a' ∧
      Landed (elements a) (elements a') b e k := by
  have start : Moving (elements a) b e .left (elements a) b (e - 1) := holeLeft_start _ less
  obtain ⟨a', k, ran, length, arranges, landed⟩ := partitionLoop_spec start high
  have inside := landed.inside
  rw [Hole.index, set_elements (by omega)] at arranges
  rw [partition, getElem?_eq_elements (by omega), orFault, except_ok_bind, ran, except_ok_bind]
  dsimp only
  rw [store_eq (by omega)]
  exact ⟨_, k, rfl, arranges, landed⟩

/-- The same, of a run that has succeeded. -/
theorem partition_ran {k : Nat} (ran : partition a b e = .ok (a', k)) (less : b < e)
    (high : e ≤ a.length) : Arranges b e a a' ∧ Landed (elements a) (elements a') b e k := by
  obtain ⟨a1, i, parts, arranges, landed⟩ := partition_spec less high
  obtain ⟨rfl, rfl⟩ := Prod.mk.inj (Except.ok.inj (parts.symm.trans ran))
  exact ⟨arranges, landed⟩

/-- An empty range is left as it is when an element stands behind it. -/
theorem partition_empty (inside : b < a.length) : partition a b b = .ok (a, b) := by
  rw [partition, getElem?_eq_elements inside, orFault, except_ok_bind, partitionLoop,
    if_neg (by omega), except_ok_bind]
  dsimp only
  rw [store_eq inside, set_elements inside]
  rfl

/-- The range must not begin at the end of the array. -/
theorem partition_outside (outside : a.length ≤ b) : partition a b e = .error .outside := by
  rw [partition, List.getElem?_eq_none outside]
  rfl

end Loops

end CodeLearning.Sorting

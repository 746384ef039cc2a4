import CodeLearning.Lib.ArrayParts

/-!
# Merging two parts of an array

Two parts of an array that stand one behind the other are merged to a second array and copied back.
The loop that compares them may do something else whenever it takes an element of the right part,
such as counting; `Merging` is what it keeps, and a relation between what is left of the parts and
the state of that count goes through it.
-/

namespace CodeLearning.MergeParts

open Rearrangement ArrayParts

variable {α σ : Type}

/-- The loop that takes elements until one part is used up, with `i`, `j` and `ti`, the second array
and the state that `onRight` changes when an element of the right part is taken. -/
def mergeLoop (takesLeft : α → α → Bool) (onRight : Nat → Nat → σ → Option σ) (a : List α)
    (mid e i j ti : Nat) (tmpa : List α) (s : σ) : Option (Nat × Nat × Nat × List α × σ) :=
  if i < mid ∧ j < e then do
    let x ← a[i]?
    let y ← a[j]?
    if takesLeft x y then do
      let tmpa ← store tmpa ti x
      mergeLoop takesLeft onRight a mid e (i + 1) j (ti + 1) tmpa s
    else do
      let s ← onRight i j s
      let tmpa ← store tmpa ti y
      mergeLoop takesLeft onRight a mid e i (j + 1) (ti + 1) tmpa s
  else some (i, j, ti, tmpa, s)
termination_by (mid - i) + (e - j)

/-- A loop that copies what is left of a part, with `ti` and the second array. -/
def copyLoop (a : List α) (e i ti : Nat) (tmpa : List α) : Option (Nat × List α) :=
  if i < e then do
    let x ← a[i]?
    let tmpa ← store tmpa ti x
    copyLoop a e (i + 1) (ti + 1) tmpa
  else some (ti, tmpa)
termination_by e - i

/-- The loop that copies the merged elements back, with the array. -/
def copyBack (tmpa : List α) (e i ti : Nat) (a : List α) : Option (List α) :=
  if i < e then do
    let x ← tmpa[ti]?
    let a ← store a i x
    copyBack tmpa e (i + 1) (ti + 1) a
  else some a
termination_by e - i

/-- The four loops, with the place in the second array where the merge starts: both arrays and the
state after them. -/
def mergeParts (takesLeft : α → α → Bool) (onRight : Nat → Nat → σ → Option σ) (base b mid e : Nat)
    (a tmpa : List α) (s : σ) : Option (List α × List α × σ) := do
  let (i, j, ti, tmpa, s) ← mergeLoop takesLeft onRight a mid e b mid base tmpa s
  let (ti, tmpa) ← copyLoop a mid i ti tmpa
  let (_, tmpa) ← copyLoop a e j ti tmpa
  let a ← copyBack tmpa e b base a
  return (a, tmpa, s)

variable {takesLeft : α → α → Bool} {onRight : Nat → Nat → σ → Option σ}
  {a tmpa out left right : List α} {mid e i j base : Nat} {s : σ}

/-! ## Copying -/

/-- The place behind one more element. -/
theorem behind_written (out : List α) (x : α) :
    base + (out ++ [x]).length = base + out.length + 1 := by
  rw [List.length_append, List.length_singleton]
  omega

/-- A list is copied behind what was written. -/
theorem copyLoop_spec {list : List α} (here : At a i list) (ends : i + list.length = e)
    (written : At tmpa base out) (room : base + out.length + list.length ≤ tmpa.length) :
    ∃ tmpa', copyLoop a e i (base + out.length) tmpa =
        some (base + (out ++ list).length, tmpa') ∧
      At tmpa' base (out ++ list) ∧ tmpa'.length = tmpa.length := by
  induction list generalizing i out tmpa with
  | nil =>
    have ends' : i = e := ends
    rw [List.append_nil, copyLoop, if_neg (by omega)]
    exact ⟨tmpa, rfl, written, rfl⟩
  | cons x list later =>
    rw [List.length_cons] at ends room
    obtain ⟨next, stored, written', length⟩ := written.store (by omega) x
    have longer := @behind_written α base out x
    obtain ⟨last, copied, all, length'⟩ :=
      later here.tail (by omega) written' (by omega)
    rw [longer] at copied
    rw [List.append_cons]
    refine ⟨last, ?_, all, length'.trans length⟩
    rw [copyLoop, if_pos (by omega), here.head]
    simp only [Option.bind_eq_bind, Option.bind_some, stored, copied]

/-- What was written is copied back. -/
theorem copyBack_spec {front old new rest : List α} {ti : Nat} (here : At tmpa ti new)
    (same : new.length = old.length) :
    copyBack tmpa (front.length + old.length) front.length ti (front ++ old ++ rest) =
      some (front ++ new ++ rest) := by
  induction new generalizing front old ti with
  | nil =>
    obtain rfl : old = [] := List.length_eq_zero_iff.mp same.symm
    rw [copyBack, if_neg (by simp)]
  | cons x new later =>
    cases old with
    | nil => cases same
    | cons y old =>
      have stored : store (front ++ y :: old ++ rest) front.length x =
          some (front ++ [x] ++ old ++ rest) := by
        rw [List.append_assoc, List.cons_append, store_middle, List.append_assoc,
          List.append_assoc, List.singleton_append]
      have behind : copyBack tmpa ((front ++ [x]).length + old.length) (front ++ [x]).length
          (ti + 1) (front ++ [x] ++ old ++ rest) = some (front ++ [x] ++ new ++ rest) :=
        later here.tail (Nat.succ.inj same)
      have ends : front.length + (y :: old).length = front.length + 1 + old.length := by
        rw [List.length_cons]
        omega
      rw [List.length_append, List.length_singleton] at behind
      rw [copyBack, if_pos (by simp), here.head]
      simp only [Option.bind_eq_bind, Option.bind_some, stored, ends, behind]
      rw [List.append_cons front x new]

/-! ## Taking the lesser elements -/

/-- Before a round of the first loop: what is left of the two parts, and what was written. -/
structure Merging (a : List α) (mid e i j base : Nat) (tmpa left right out : List α) : Prop where
  /-- The rest of the left part. -/
  atLeft : At a i left
  /-- It ends at the middle. -/
  endLeft : i + left.length = mid
  /-- The rest of the right part. -/
  atRight : At a j right
  /-- It ends at the end. -/
  endRight : j + right.length = e
  /-- What was written. -/
  written : At tmpa base out
  /-- There is room for the others. -/
  room : base + out.length + left.length + right.length ≤ tmpa.length

/-- What the rounds keep between the rest of the left part, that of the right part, which starts at
`j`, and the state. -/
structure Keeps (takesLeft : α → α → Bool) (onRight : Nat → Nat → σ → Option σ) (mid : Nat)
    (kept : List α → Nat → List α → σ → Prop) : Prop where
  /-- A round that takes an element of the left part. -/
  left : ∀ {x y left j right s}, kept (x :: left) j (y :: right) s → takesLeft x y = true →
    kept left j (y :: right) s
  /-- A round that takes an element of the right part. -/
  right : ∀ {x y left i j right s}, i + (x :: left).length = mid →
    kept (x :: left) j (y :: right) s → ¬ takesLeft x y = true →
    ∃ s', onRight i j s = some s' ∧ kept (x :: left) (j + 1) right s'

/-- A round that takes an element of the left part. -/
theorem Merging.takeLeft {x y : α}
    (inv : Merging a mid e i j base tmpa (x :: left) (y :: right) out)
    (first : takesLeft x y = true) (onRight : Nat → Nat → σ → Option σ) (s : σ) :
    ∃ next, mergeLoop takesLeft onRight a mid e i j (base + out.length) tmpa s =
        mergeLoop takesLeft onRight a mid e (i + 1) j (base + (out ++ [x]).length) next s ∧
      Merging a mid e (i + 1) j base next left (y :: right) (out ++ [x]) ∧
      next.length = tmpa.length := by
  obtain ⟨atLeft, endLeft, atRight, endRight, written, room⟩ := inv
  simp only [List.length_cons] at endLeft endRight room
  obtain ⟨next, stored, written', length⟩ := written.store (by omega) x
  have longer := @behind_written α base out x
  refine ⟨next, ?_, ⟨atLeft.tail, by omega, atRight, endRight, written', ?_⟩, length⟩
  · rw [mergeLoop, if_pos ⟨by omega, by omega⟩, atLeft.head, atRight.head]
    simp only [Option.bind_eq_bind, Option.bind_some, if_pos first, stored, longer]
  · rw [longer, List.length_cons]
    omega

/-- A round that takes an element of the right part. -/
theorem Merging.takeRight {x y : α} {s' : σ}
    (inv : Merging a mid e i j base tmpa (x :: left) (y :: right) out)
    (second : ¬ takesLeft x y = true) (counted : onRight i j s = some s') :
    ∃ next, mergeLoop takesLeft onRight a mid e i j (base + out.length) tmpa s =
        mergeLoop takesLeft onRight a mid e i (j + 1) (base + (out ++ [y]).length) next s' ∧
      Merging a mid e i (j + 1) base next (x :: left) right (out ++ [y]) ∧
      next.length = tmpa.length := by
  obtain ⟨atLeft, endLeft, atRight, endRight, written, room⟩ := inv
  simp only [List.length_cons] at endLeft endRight room
  obtain ⟨next, stored, written', length⟩ := written.store (by omega) y
  have longer := @behind_written α base out y
  refine ⟨next, ?_, ⟨atLeft, endLeft, atRight.tail, by omega, written', ?_⟩, length⟩
  · rw [mergeLoop, if_pos ⟨by omega, by omega⟩, atLeft.head, atRight.head]
    simp only [Option.bind_eq_bind, Option.bind_some, if_neg second, counted, stored, longer]
  · rw [longer, List.length_cons]
    omega

/-- The first loop ends when one part is used up. -/
theorem mergeLoop_spec {kept : List α → Nat → List α → σ → Prop}
    (keeps : Keeps takesLeft onRight mid kept)
    (inv : Merging a mid e i j base tmpa left right out) (now : kept left j right s) :
    ∃ i' j' left' right' out' tmpa' s',
      mergeLoop takesLeft onRight a mid e i j (base + out.length) tmpa s =
        some (i', j', base + out'.length, tmpa', s') ∧
      Merging a mid e i' j' base tmpa' left' right' out' ∧
      out' ++ (left' ++ right') = out ++ List.merge left right takesLeft ∧
      tmpa'.length = tmpa.length ∧ kept left' j' right' s' ∧ (left' = [] ∨ right' = []) := by
  fun_induction List.merge left right takesLeft generalizing i j out tmpa s with
  | case1 right =>
    have ends : i = mid := inv.endLeft
    rw [mergeLoop, if_neg (by omega)]
    exact ⟨i, j, [], right, out, tmpa, s, rfl, inv, rfl, rfl, now, .inl rfl⟩
  | case2 left =>
    have ends : j = e := inv.endRight
    rw [mergeLoop, if_neg (by omega)]
    exact ⟨i, j, left, [], out, tmpa, s, rfl, inv, by rw [List.append_nil], rfl, now, .inr rfl⟩
  | case3 x left y right first later =>
    obtain ⟨next, same, inv', length⟩ := inv.takeLeft first onRight s
    obtain ⟨i', j', left', right', out', tmpa', s', ran, final, lists, length', last⟩ :=
      later inv' (keeps.left now first)
    refine ⟨i', j', left', right', out', tmpa', s', same.trans ran, final, ?_,
      length'.trans length, last⟩
    rw [lists, List.append_assoc, List.singleton_append]
  | case4 x left y right second later =>
    obtain ⟨counted, on, now'⟩ := keeps.right inv.endLeft now second
    obtain ⟨next, same, inv', length⟩ := inv.takeRight second on
    obtain ⟨i', j', left', right', out', tmpa', s', ran, final, lists, length', last⟩ :=
      later inv' now'
    refine ⟨i', j', left', right', out', tmpa', s', same.trans ran, final, ?_,
      length'.trans length, last⟩
    rw [lists, List.append_assoc, List.singleton_append]

/-! ## The whole merge -/

/-- Two parts of the array that stand one behind the other are merged. -/
theorem mergeParts_spec {kept : List α → Nat → List α → σ → Prop} (base : Nat)
    (front left right rest tmpa : List α)
    (keeps : Keeps takesLeft onRight (front ++ left).length kept)
    (now : kept left (front ++ left).length right s)
    (room : base + left.length + right.length ≤ tmpa.length) :
    ∃ tmpa' j left' right' s', mergeParts takesLeft onRight base front.length
        (front ++ left).length (front ++ left ++ right).length
        (front ++ (left ++ right) ++ rest) tmpa s =
          some (front ++ List.merge left right takesLeft ++ rest, tmpa', s') ∧
      tmpa'.length = tmpa.length ∧ kept left' j right' s' ∧ (left' = [] ∨ right' = []) := by
  have atLeft : At (front ++ (left ++ right) ++ rest) front.length left := by
    rw [← List.append_assoc, List.append_assoc]
    exact at_middle
  have atRight : At (front ++ (left ++ right) ++ rest) (front ++ left).length right := by
    rw [← List.append_assoc]
    exact at_middle
  have start : Merging (front ++ (left ++ right) ++ rest) (front ++ left).length
      (front ++ left ++ right).length front.length (front ++ left).length base tmpa left right [] :=
    ⟨atLeft, List.length_append.symm, atRight, List.length_append.symm, at_nil, room⟩
  obtain ⟨i, j, left', right', out, next, s', ran, inv, lists, length, last⟩ :=
    mergeLoop_spec keeps start now
  rw [List.length_nil, Nat.add_zero] at ran
  rw [List.nil_append] at lists
  have room' := inv.room
  obtain ⟨first, copied, written, length'⟩ :=
    copyLoop_spec inv.atLeft inv.endLeft inv.written (by omega)
  obtain ⟨final, copied', written', length''⟩ :=
    copyLoop_spec inv.atRight inv.endRight written (by rw [List.length_append]; omega)
  rw [List.append_assoc, lists] at written'
  have size : (List.merge left right takesLeft).length = (left ++ right).length := by
    rw [List.length_merge, List.length_append]
  have back : copyBack final (front ++ left ++ right).length front.length base
      (front ++ (left ++ right) ++ rest) =
        some (front ++ List.merge left right takesLeft ++ rest) := by
    rw [List.append_assoc, List.length_append]
    exact copyBack_spec written' size
  refine ⟨final, j, left', right', s', ?_, by omega, last⟩
  rw [mergeParts]
  simp only [ran, copied, copied', back, Option.bind_eq_bind, Option.bind_some]
  rfl

end CodeLearning.MergeParts

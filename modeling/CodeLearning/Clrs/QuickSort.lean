import CodeLearning.Clrs.Partition
import CodeLearning.Lib.CInt

/-!
# The quicksort that moves a hole

`quicksort` of `sorting.c` parts a range of the array and recurs into both parts when it has at
least three elements. A part may be empty, and its first element is read all the same; behind the
last element of the array there is none. `Calls` are the calls that a call leads to. Where the first
element of each lands says where the others begin, and this decides about the two faults of a run:
such a read, and the overflow of the sum that the length is tested with.
-/

namespace CodeLearning.Sorting

open Rearrangement CInt

/-- `quicksort`. -/
def quicksort (a : List Int32) (b e : Nat) : Except Fault (List Int32) :=
  match ran : partition a b e with
  | .error fault => .error fault
  | .ok (a, i) =>
    if b + 2 ≤ intMax then
      if b + 2 < e then do
        let a ← quicksort a b i
        quicksort a (i + 1) e
      else .ok a
    else .error .overflow
termination_by e - b
decreasing_by
  all_goals
    have index := partition_index ran
    omega

/-- `my_qsort`. -/
def myQsort (a : List Int32) : Except Fault (List Int32) := quicksort a 0 a.length

/-- `quicksort`, without the proof that it ends. -/
theorem quicksort_eq (a : List Int32) (b e : Nat) :
    quicksort a b e = (partition a b e >>= fun parted =>
      if b + 2 ≤ intMax then
        if b + 2 < e then quicksort parted.1 b parted.2 >>= fun a => quicksort a (parted.2 + 1) e
        else .ok parted.1
      else .error .overflow) := by
  rw [quicksort]
  split
  · rename_i fault failed
    rw [failed]
    rfl
  · rename_i a' i ran
    rw [ran]
    rfl

/-! ## The calls -/

/-- The arguments of a call, with the array as it is then. -/
structure Call where
  /-- `a`. -/
  a : List Int32
  /-- `b`. -/
  b : Nat
  /-- `e`. -/
  e : Nat

/-- The calls of `quicksort` that one call leads to, itself among them. -/
inductive Calls : Call → Call → Prop
  /-- The call. -/
  | self (c : Call) : Calls c c
  /-- Those for the part before the first element. -/
  | before {s c : Call} {a : List Int32} {i : Nat} (ran : partition s.a s.b s.e = .ok (a, i))
      (fits : s.b + 2 ≤ intMax) (long : s.b + 2 < s.e) (rest : Calls ⟨a, s.b, i⟩ c) : Calls s c
  /-- Those for the part behind it. -/
  | behind {s c : Call} {a a' : List Int32} {i : Nat} (ran : partition s.a s.b s.e = .ok (a, i))
      (fits : s.b + 2 ≤ intMax) (long : s.b + 2 < s.e) (sorted : quicksort a s.b i = .ok a')
      (rest : Calls ⟨a', i + 1, s.e⟩ c) : Calls s c

/-- A call that begins inside of the array and does not overflow; so does the one for the part
behind its first element. -/
structure Call.Fine (c : Call) : Prop where
  /-- It begins inside of the array. -/
  inside : c.b < c.a.length
  /-- It does not overflow. -/
  fits : c.b + 2 ≤ intMax
  /-- The part behind the first element begins early enough. -/
  passes : c.b + 2 < c.e → ∀ m, c.b < m → Passes (elements c.a) c.b c.e m →
    m + 1 < c.a.length ∧ m + 3 ≤ intMax

/-- How a call ends: with its range in order, after calls that were all fine, or with a fault of one
of the calls. -/
inductive Outcome (s : Call) : Except Fault (List Int32) → Prop
  /-- The range is sorted. -/
  | sorted {a' : List Int32} (arranges : Arranges s.b s.e s.a a')
      (increasing : Increasing (elements a') s.b s.e) (fine : ∀ c, Calls s c → c.Fine) :
      Outcome s (.ok a')
  /-- A call begins too late for the sum of `b` and two. -/
  | overflow {c : Call} (calls : Calls s c) (inside : c.b < c.a.length) (late : intMax < c.b + 2) :
      Outcome s (.error .overflow)
  /-- A call begins behind the array. -/
  | outside {c : Call} (calls : Calls s c) (behind : c.a.length ≤ c.b) : Outcome s (.error .outside)

/-- A fault of a call is one of the calls that led to it. -/
theorem Outcome.failed {s t : Call} {fault : Fault} (outcome : Outcome t (.error fault))
    (leads : ∀ c, Calls t c → Calls s c) : Outcome s (.error fault) := by
  cases outcome with
  | overflow calls inside late => exact .overflow (leads _ calls) inside late
  | outside calls behind => exact .outside (leads _ calls) behind

section Runs

variable {a a' : List Int32} {b e k : Nat}

/-- A call for at most two elements leads to no other one. -/
theorem calls_short {s c : Call} (calls : Calls s c) (short : s.e ≤ s.b + 2) : c = s := by
  cases calls with
  | self => rfl
  | before _ _ long => omega
  | behind _ _ long => omega

/-- A call for at most two elements is fine. -/
theorem fine_short {s c : Call} (inside : s.b < s.a.length) (fits : s.b + 2 ≤ intMax)
    (short : s.e ≤ s.b + 2) (calls : Calls s c) : c.Fine := by
  rw [calls_short calls short]
  exact ⟨inside, fits, fun long => by omega⟩

/-- A call for an empty range before an element. -/
theorem quicksort_empty (inside : b < a.length) : Outcome ⟨a, b, b⟩ (quicksort a b b) := by
  rw [quicksort_eq, partition_empty inside, except_ok_bind]
  by_cases fits : b + 2 ≤ intMax
  · rw [if_pos fits, if_neg (by omega)]
    exact .sorted (.refl b b a) (increasing_of_short (by dsimp only; omega))
      fun c calls => fine_short inside fits (by dsimp only; omega) calls
  · rw [if_neg fits]
    exact .overflow (.self _) inside (by dsimp only; omega)

/-- The parts are sorted one after the other. -/
theorem Outcome.join {a1 a2 a3 : List Int32} (ran : partition a b e = .ok (a1, k))
    (inside : b < a.length) (fits : b + 2 ≤ intMax) (arranges : Arranges b e a a1)
    (landed : Landed (elements a) (elements a1) b e k) (first : quicksort a1 b k = .ok a2)
    (outcome1 : Outcome ⟨a1, b, k⟩ (.ok a2)) (outcome2 : Outcome ⟨a2, k + 1, e⟩ (.ok a3)) :
    Outcome ⟨a, b, e⟩ (.ok a3) := by
  have between := landed.inside
  cases outcome1 with
  | sorted arranges1 sorted1 fine1 =>
    cases outcome2 with
    | sorted arranges2 sorted2 fine2 =>
      have joined := arranges.join landed.parted between arranges1 sorted1 arranges2 sorted2
      have length : a2.length = a.length := arranges1.length.trans arranges.length
      -- The call for the part behind the first element begins at `k + 1`.
      have next := fine2 _ (.self _)
      have insideNext : k + 1 < a2.length := next.inside
      have fitsNext : k + 1 + 2 ≤ intMax := next.fits
      refine .sorted joined.1 joined.2 fun c calls => ?_
      cases calls with
      | self =>
        refine ⟨inside, fits, fun _ m low passes => ?_⟩
        have early := (landed.passes m low).mpr passes
        dsimp only
        omega
      | before ran1 _ _ rest =>
        obtain ⟨rfl, rfl⟩ := Prod.mk.inj (Except.ok.inj (ran.symm.trans ran1))
        exact fine1 c rest
      | behind ran1 _ _ ran2 rest =>
        obtain ⟨rfl, rfl⟩ := Prod.mk.inj (Except.ok.inj (ran.symm.trans ran1))
        obtain rfl := Except.ok.inj (first.symm.trans ran2)
        exact fine2 c rest

/-- How `quicksort` ends. -/
theorem quicksort_outcome (le : b ≤ e) (high : e ≤ a.length) :
    Outcome ⟨a, b, e⟩ (quicksort a b e) := by
  induction size : e - b using Nat.strongRecOn generalizing a b e with
  | ind size smaller =>
    by_cases inside : b < a.length
    · by_cases empty : b = e
      · rw [← empty]
        exact quicksort_empty inside
      · obtain ⟨a1, k, ran, arranges, landed⟩ := partition_spec (show b < e by omega) high
        have between := landed.inside
        have length := arranges.length
        rw [quicksort_eq, ran, except_ok_bind]
        dsimp only
        by_cases fits : b + 2 ≤ intMax
        · rw [if_pos fits]
          by_cases long : b + 2 < e
          · have outcome1 := smaller (k - b) (by omega) between.1 (by omega) (a := a1) rfl
            rw [if_pos long]
            cases first : quicksort a1 b k with
            | error fault =>
              rw [first] at outcome1
              exact outcome1.failed fun c calls => .before ran fits long calls
            | ok a2 =>
              rw [first] at outcome1
              have length1 : a2.length = a1.length := by
                cases outcome1 with
                | sorted arranges1 _ _ => exact arranges1.length
              have outcome2 := smaller (e - (k + 1)) (by omega) (show k + 1 ≤ e by omega)
                (by omega) (a := a2) rfl
              rw [except_ok_bind]
              cases second : quicksort a2 (k + 1) e with
              | error fault =>
                rw [second] at outcome2
                exact outcome2.failed fun c calls => .behind ran fits long first calls
              | ok a3 =>
                rw [second] at outcome2
                exact outcome1.join ran inside fits arranges landed first outcome2
          · rw [if_neg long]
            exact .sorted arranges (landed.parted.increasing
              (increasing_of_short (by omega)) (increasing_of_short (by omega)))
              fun c calls => fine_short inside fits (by dsimp only; omega) calls
        · rw [if_neg fits]
          exact .overflow (.self _) inside (by dsimp only; omega)
    · rw [quicksort_eq, partition_outside (by omega)]
      exact .outside (.self _) (by dsimp only; omega)

/-- A call that returns has sorted its range, and all calls that it led to were fine. -/
theorem quicksort_returned (ran : quicksort a b e = .ok a') (le : b ≤ e) (high : e ≤ a.length) :
    Arranges b e a a' ∧ Increasing (elements a') b e ∧ ∀ c, Calls ⟨a, b, e⟩ c → c.Fine := by
  have outcome := quicksort_outcome le high
  rw [ran] at outcome
  cases outcome with
  | sorted arranges increasing fine => exact ⟨arranges, increasing, fine⟩

/-- The ranges of the calls are parts of the first one. -/
theorem calls_within {s c : Call} (calls : Calls s c) (le : s.b ≤ s.e) (high : s.e ≤ s.a.length) :
    s.b ≤ c.b ∧ c.b ≤ c.e ∧ c.e ≤ s.e ∧ c.a.length = s.a.length := by
  induction calls with
  | self s => exact ⟨Nat.le_refl _, le, Nat.le_refl _, rfl⟩
  | @before s c a1 i ran fits long rest within =>
    obtain ⟨arranges, landed⟩ := partition_ran ran (by omega) high
    have between := landed.inside
    have length := arranges.length
    have part := within between.1 (by dsimp only; omega)
    dsimp only at part
    omega
  | @behind s c a1 a2 i ran fits long first rest within =>
    obtain ⟨arranges, landed⟩ := partition_ran ran (by omega) high
    have between := landed.inside
    have length := arranges.length
    have length1 := (quicksort_returned first between.1 (by omega)).1.length
    have part := within (by dsimp only; omega) (by dsimp only; omega)
    dsimp only at part
    omega

/-- Only the first call is for the whole range. -/
theorem calls_whole {s c : Call} (calls : Calls s c) (high : s.e ≤ s.a.length)
    (whole : c.b = s.b ∧ c.e = s.e) : c = s := by
  cases calls with
  | self => rfl
  | @before _ _ a1 i ran fits long rest =>
    obtain ⟨arranges, landed⟩ := partition_ran ran (by omega) high
    have between := landed.inside
    have length := arranges.length
    have within := calls_within rest between.1 (by dsimp only; omega)
    dsimp only at within
    omega
  | @behind _ _ a1 a2 i ran fits long first rest =>
    obtain ⟨arranges, landed⟩ := partition_ran ran (by omega) high
    have between := landed.inside
    have length := arranges.length
    have length1 := (quicksort_returned first between.1 (by omega)).1.length
    have within := calls_within rest (by dsimp only; omega) (by dsimp only; omega)
    dsimp only at within
    omega

/-- No call begins late when the first element of none passes to the place before the limit. -/
theorem calls_limit {s c : Call} {limit : Nat} (calls : Calls s c) (le : s.b ≤ s.e)
    (high : s.e ≤ s.a.length) (low : s.b < limit) (most : s.e ≤ limit + 1)
    (stays : ∀ c, Calls s c → c.b + 2 < c.e → ¬ Passes (elements c.a) c.b c.e (limit - 1)) :
    c.b < limit := by
  induction calls with
  | self s => exact low
  | @before s c a1 i ran fits long rest early =>
    obtain ⟨arranges, landed⟩ := partition_ran ran (by omega) high
    have between := landed.inside
    have length := arranges.length
    exact early between.1 (by dsimp only; omega) low (by dsimp only; omega)
      fun c calls => stays c (.before ran fits long calls)
  | @behind s c a1 a2 i ran fits long first rest early =>
    obtain ⟨arranges, landed⟩ := partition_ran ran (by omega) high
    have between := landed.inside
    have length := arranges.length
    have length1 := (quicksort_returned first between.1 (by omega)).1.length
    have notPast : ¬ limit - 1 ≤ i := fun past =>
      stays s (.self s) long ((landed.passes (limit - 1) (by omega)).mp past)
    exact early (by dsimp only; omega) (by dsimp only; omega) (by dsimp only; omega) most
      fun c calls => stays c (.behind ran fits long first calls)

end Runs

/-! ## Sorting a range -/

/-- The result is the array with the elements from `b` to before `e` in order. -/
def SortsRange (result : Except Fault (List Int32)) (a : List Int32) (b e : Nat) : Prop :=
  ∃ part, result = .ok (a.take b ++ part ++ a.drop e) ∧ part.Pairwise (· ≤ ·) ∧
    part.Perm ((a.take e).drop b)

section Ranges

variable {a a' : List Int32} {b e m : Nat}

/-- A call that returns sorts its range. -/
theorem sortsRange_of_returned (ran : quicksort a b e = .ok a') (le : b ≤ e) (high : e ≤ a.length) :
    SortsRange (quicksort a b e) a b e := by
  have returned := quicksort_returned ran le high
  obtain ⟨part, same, perm⟩ := returned.1.slice le high
  have front : (a.take b).length = b := List.length_take_of_le (by omega)
  have both : (a.take b ++ part).length = e := by
    rw [List.length_append, front, perm.length_eq, List.length_drop, List.length_take_of_le high]
    omega
  refine ⟨part, by rw [ran, same], ?_, perm⟩
  have increasing := returned.2.1
  rw [same] at increasing
  apply pairwise_of_increasing_part (a.take b) (a.drop e)
  rw [front, both]
  exact increasing

/-- Nothing passes to the end of the range. -/
theorem not_passes_of_le {f : Nat → Int32} (le : e ≤ m) : ¬ Passes f b e m := by
  have none : countIn (fun p => f p < f b) m e = 0 := by
    have grows : Nat.count (fun p => f p < f b) e ≤ Nat.count (fun p => f p < f b) m :=
      Nat.count_monotone _ le
    unfold countIn
    omega
  unfold Passes
  omega

/-- A call sorts its range when in none of the calls that it leads to the first element passes to
the greatest index at which a call may begin: the part behind it would begin too late. -/
theorem sortsRange_of_calls (le : b ≤ e) (inside : e < a.length) (isInt : e ≤ intMax)
    (fits : b + 2 ≤ intMax)
    (stays : ∀ c, Calls ⟨a, b, e⟩ c → c.b + 2 < c.e →
      ¬ Passes (elements c.a) c.b c.e (intMax - 2)) : SortsRange (quicksort a b e) a b e := by
  have high : e ≤ a.length := Nat.le_of_lt inside
  have outcome := quicksort_outcome le high
  cases ran : quicksort a b e with
  | ok a' => exact ran ▸ sortsRange_of_returned ran le high
  | error fault =>
    rw [ran] at outcome
    cases outcome with
    | @overflow c calls _ late =>
      have begins : c.b < intMax - 1 :=
        calls_limit calls le high (by dsimp only; omega) (by dsimp only; omega) stays
      omega
    | @outside c calls behind =>
      have within := calls_within calls le high
      dsimp only at within
      omega

/-- A range that ends early enough is sorted. -/
theorem quicksort_sorts (le : b ≤ e) (inside : e < a.length) (small : e + 2 ≤ intMax) :
    SortsRange (quicksort a b e) a b e := by
  refine sortsRange_of_calls le inside (by omega) (by omega) fun c calls _ => not_passes_of_le ?_
  have within := calls_within calls le (Nat.le_of_lt inside)
  dsimp only at within
  omega

/-- For every array and every range before one of its elements: `quicksort` sorts the range and
leaves the other elements where they are if and only if `b + 2` is an `int` and in no call the
first element passes to the greatest index at which a call may begin. -/
theorem quicksort_sorts_iff (a : List Int32) (b e : Nat) (le : b ≤ e) (inside : e < a.length)
    (isInt : e ≤ intMax) :
    SortsRange (quicksort a b e) a b e ↔
      b + 2 ≤ intMax ∧ ∀ c, Calls ⟨a, b, e⟩ c → c.b + 2 < c.e →
        ¬ Passes (elements c.a) c.b c.e (intMax - 2) := by
  constructor
  · rintro ⟨part, ran, _⟩
    have fine := (quicksort_returned ran le (by omega)).2.2
    refine ⟨(fine _ (.self _)).fits, fun c calls long passes => ?_⟩
    have within := calls_within calls le (Nat.le_of_lt inside)
    dsimp only at within
    have early := ((fine c calls).passes long (intMax - 2) (by omega) passes).2
    omega
  · intro condition
    exact sortsRange_of_calls le inside isInt condition.1 condition.2

/-- Three elements before a fourth one. -/
theorem quicksort_sorts_three : SortsRange (quicksort [30, 10, 20, 0] 0 3) [30, 10, 20, 0] 0 3 := by
  refine (quicksort_sorts_iff [30, 10, 20, 0] 0 3 (by decide) (by decide) (by decide)).mpr
    ⟨by decide, fun c calls _ => not_passes_of_le ?_⟩
  have within := calls_within calls (by decide) (by decide)
  have limit : intMax = 2 ^ 31 - 1 := rfl
  dsimp only at within
  omega

/-- A range that begins at the second greatest `int`, or behind it. -/
theorem quicksort_late (exceeds : intMax < b + 2) (inside : b < a.length) :
    quicksort a b b = .error .overflow := by
  rw [quicksort_eq, partition_empty inside, except_ok_bind, if_neg (by omega)]

/-- An empty range before the last one of `2 ^ 31 - 1` elements. -/
theorem quicksort_overflows :
    2 ^ 31 - 2 < (List.replicate (2 ^ 31 - 1) (0 : Int32)).length ∧ 2 ^ 31 - 2 ≤ intMax ∧
      ¬ SortsRange (quicksort (List.replicate (2 ^ 31 - 1) 0) (2 ^ 31 - 2) (2 ^ 31 - 2))
        (List.replicate (2 ^ 31 - 1) 0) (2 ^ 31 - 2) (2 ^ 31 - 2) := by
  have inside : 2 ^ 31 - 2 < (List.replicate (2 ^ 31 - 1) (0 : Int32)).length := by
    rw [List.length_replicate]
    omega
  have limit : intMax = 2 ^ 31 - 1 := rfl
  refine ⟨inside, by omega, ?_⟩
  rintro ⟨part, ran, _⟩
  rw [quicksort_late (by omega) inside] at ran
  cases ran

/-- The run of `my_qsort` makes no access outside of the array. -/
def StaysInside (a : List Int32) : Prop := myQsort a ≠ .error .outside

/-- In none of the calls for at least three elements does the first one pass to the last place of
the array: it is not so that the last element is less than the first one and that none of those
before the last one is greater. -/
def NonePassesToEnd (a : List Int32) : Prop :=
  ∀ c, Calls ⟨a, 0, a.length⟩ c → c.b + 2 < c.e → ¬ Passes (elements c.a) c.b c.e (a.length - 1)

/-- Then all calls begin inside of the array. -/
theorem staysInside_of_calls (some : a ≠ []) (stays : NonePassesToEnd a) : StaysInside a := by
  have positive : 0 < a.length := List.length_pos_iff.mpr some
  have inArray : ∀ c, Calls ⟨a, 0, a.length⟩ c → c.b < c.a.length := by
    intro c calls
    have within := calls_within calls (Nat.zero_le _) (Nat.le_refl _)
    have begins : c.b < a.length := calls_limit calls (Nat.zero_le _) (Nat.le_refl _) positive
      (Nat.le_succ _) stays
    dsimp only at within
    omega
  have outcome := quicksort_outcome (Nat.zero_le a.length) (Nat.le_refl _)
  intro ran
  unfold myQsort at ran
  rw [ran] at outcome
  cases outcome with
  | @outside c calls behind =>
    have within := inArray c calls
    omega

/-- An empty array has no first element. -/
theorem not_staysInside_nil : ¬ StaysInside [] := by
  intro stays
  apply stays
  have outside : partition [] 0 0 = .error .outside := partition_outside (Nat.le_refl 0)
  rw [myQsort, quicksort_eq, List.length_nil, outside]
  rfl

/-- An access outside of the array follows when a first element passes to its last place, unless an
overflow comes before. -/
theorem nonePassesToEnd_of_staysInside (few : a.length < intMax) (stays : StaysInside a) :
    NonePassesToEnd a := by
  intro c calls long passes
  have within := calls_within calls (Nat.zero_le _) (Nat.le_refl _)
  dsimp only at within
  have outcome := quicksort_outcome (Nat.zero_le a.length) (Nat.le_refl _)
  unfold StaysInside myQsort at stays
  cases ran : quicksort a 0 a.length with
  | ok a' =>
    rw [ran] at outcome
    cases outcome with
    | sorted _ _ fine =>
      have early := ((fine c calls).passes long (a.length - 1) (by omega) passes).1
      omega
  | error fault =>
    rw [ran] at outcome
    cases outcome with
    | @overflow d calls' inside late =>
      have within' := calls_within calls' (Nat.zero_le _) (Nat.le_refl _)
      dsimp only at within'
      omega
    | outside _ _ => exact stays ran

/-- For every array: all accesses of `my_qsort` are inside of it if it is not empty and no first
element passes to its last place. With fewer elements than there can be, no overflow comes before
an access outside, and the condition is also necessary. -/
theorem myQsort_inside (a : List Int32) :
    (a ≠ [] ∧ NonePassesToEnd a → StaysInside a) ∧
      (a.length < intMax → StaysInside a → a ≠ [] ∧ NonePassesToEnd a) := by
  constructor
  · intro condition
    exact staysInside_of_calls condition.1 condition.2
  · intro few stays
    refine ⟨fun empty => ?_, nonePassesToEnd_of_staysInside few stays⟩
    rw [empty] at stays
    exact not_staysInside_nil stays

/-- Three elements in the right order. -/
theorem myQsort_inside_three : StaysInside [10, 20, 30] := by
  refine (myQsort_inside [10, 20, 30]).1 ⟨by decide, fun c calls long => ?_⟩
  have within := calls_within calls (by decide) (by decide)
  have length : [(10 : Int32), 20, 30].length = 3 := rfl
  dsimp only at within
  rw [calls_whole calls (by decide) (by dsimp only; omega)]
  decide

/-- Of three elements in the opposite order the first one lands at the end, and the call for the
part behind it reads the element behind the array. -/
theorem myQsort_leaves_array : ¬ StaysInside [30, 20, 10] := by
  intro stays
  have none := nonePassesToEnd_of_staysInside (by decide) stays
  exact none _ (.self _) (by decide) (by decide)

end Ranges

end CodeLearning.Sorting

import CodeLearning.Lib.LinkedList

/-!
# Families of linked lists in one store

A store holds a list for each member of a family, each with a first node of its own that stays. No
node is on two lists, and every node of the store is on one: nothing is shared and nothing is lost.
Putting a node behind another, taking out the node behind another and taking out all nodes but the
first keep a family.
-/

namespace CodeLearning

namespace ListFamily

open LinkedList

variable {ι α : Type} {null : α} {next next' : α → Option α} {header : ι → α}
  {lists : ι → List α} {i j : ι} {a b c n p : α} {l front back : List α}

/-- The lists of a store, their first nodes included. -/
structure Family (null : α) (next : α → Option α) (header : ι → α) (lists : ι → List α) :
    Prop where
  /-- Each list is reached from its first node. -/
  path : ∀ i, Path null next (header i) (lists i)
  /-- The first node is there. -/
  present : ∀ i, header i ≠ null
  /-- No node is on two lists. -/
  apart : ∀ i j a, a ∈ lists i → a ∈ lists j → i = j
  /-- Every node is on a list. -/
  all : ∀ a n, next a = some n → ∃ i, a ∈ lists i

/-- A node of a list is in the store. -/
theorem Family.exists_next (family : Family null next header lists) (mem : a ∈ lists i) :
    ∃ n, next a = some n := by
  obtain ⟨front, back, split⟩ := List.append_of_mem mem
  have path := family.path i
  rw [split] at path
  obtain ⟨-, -, n, isNext, -⟩ := path.suffix
  exact ⟨n, isNext⟩

/-- A node that is not in the store is on no list. -/
theorem Family.not_mem (family : Family null next header lists) (fresh : next a = none) :
    a ∉ lists i := by
  intro mem
  obtain ⟨n, isNext⟩ := family.exists_next mem
  rw [fresh] at isNext
  cases isNext

/-- One list of a store whose lists have only their first nodes. -/
theorem family_empty (present : ∀ i, header i ≠ null)
    (injective : ∀ i j, header i = header j → i = j)
    (first : ∀ i, next (header i) = some null)
    (only : ∀ a n, next a = some n → ∃ i, a = header i) :
    Family null next header fun i => [header i] := by
  refine ⟨fun i => ⟨rfl, present i, null, first i, rfl⟩, present, ?_, ?_⟩
  · intro i j a memI memJ
    exact injective i j ((List.mem_singleton.mp memI).symm.trans (List.mem_singleton.mp memJ))
  · intro a n isNext
    obtain ⟨i, same⟩ := only a n isNext
    exact ⟨i, List.mem_singleton.mpr same⟩

variable [DecidableEq ι]

/-- Replacing one list by one of nodes of its own keeps the lists apart. -/
theorem Family.replace (family : Family null next header lists)
    (path : Path null next' (header i) l)
    (others : ∀ j, j ≠ i → ∀ b ∈ lists j, next' b = next b)
    (own : ∀ b ∈ l, b ∈ lists i ∨ next b = none)
    (all : ∀ b n, next' b = some n → b ∈ l ∨ ∃ j, j ≠ i ∧ b ∈ lists j) :
    Family null next' header (Function.update lists i l) := by
  have outside : ∀ j, j ≠ i → ∀ b ∈ lists j, b ∉ l := by
    intro j differs b mem inside
    rcases own b inside with mine | fresh
    · exact differs (family.apart j i b mem mine)
    · exact family.not_mem fresh mem
  refine ⟨?_, family.present, ?_, ?_⟩
  · intro j
    by_cases same : j = i
    · rw [same, Function.update_self]
      exact path
    · rw [Function.update_of_ne same]
      exact (family.path j).congr (others j same)
  · intro j k b memJ memK
    by_cases sameJ : j = i
    · by_cases sameK : k = i
      · rw [sameJ, sameK]
      · rw [sameJ, Function.update_self] at memJ
        rw [Function.update_of_ne sameK] at memK
        exact absurd memJ (outside k sameK b memK)
    · rw [Function.update_of_ne sameJ] at memJ
      by_cases sameK : k = i
      · rw [sameK, Function.update_self] at memK
        exact absurd memK (outside j sameJ b memJ)
      · rw [Function.update_of_ne sameK] at memK
        exact family.apart j k b memJ memK
  · intro b n isNext
    rcases all b n isNext with mine | ⟨j, differs, mem⟩
    · exact ⟨i, by rw [Function.update_self]; exact mine⟩
    · exact ⟨j, by rw [Function.update_of_ne differs]; exact mem⟩

variable [DecidableEq α]

/-- A new node is put behind a node of a list. -/
theorem Family.insert (family : Family null next header lists)
    (split : lists i = front ++ p :: back) (isNext : next p = some n) (nonnull : a ≠ null)
    (fresh : next a = none) :
    Family null (Function.update (Function.update next a (some n)) p (some a)) header
      (Function.update lists i (front ++ p :: a :: back)) := by
  have path := family.path i
  rw [split] at path
  have inside : ∀ b, b ∈ front ++ p :: back → b ≠ a := by
    rintro b mem rfl
    rw [← split] at mem
    exact family.not_mem fresh mem
  have distinct := path.nodup
  have differs : p ≠ a := inside p (by simp)
  obtain ⟨-, -, m, isNext', tail⟩ := path.suffix
  obtain rfl : n = m := Option.some.inj (isNext.symm.trans isNext')
  have notBack : a ∉ back := fun mem => inside a (by simp [mem]) rfl
  have notFirst : p ∉ a :: back := by
    rw [List.mem_cons, not_or]
    exact ⟨differs, (List.nodup_cons.mp (List.nodup_append.mp distinct).2.1).1⟩
  have tail' : Path null (Function.update next a (some n)) a (a :: back) :=
    ⟨rfl, nonnull, n, Function.update_self .., tail.update_outside notBack _⟩
  have outside : a ∉ front ++ p :: back := fun mem => inside a mem rfl
  apply family.replace
  · exact (path.update_outside outside (some n)).redirect tail' notFirst
  · intro j other b mem
    have notA : b ≠ a := by
      rintro rfl
      exact family.not_mem fresh mem
    have notP : b ≠ p := by
      rintro rfl
      exact other (family.apart j i b mem (by rw [split]; simp))
    rw [Function.update_of_ne notP, Function.update_of_ne notA]
  · intro b mem
    by_cases isNew : b = a
    · exact .inr (isNew ▸ fresh)
    · refine .inl ?_
      rw [split]
      simpa [isNew] using mem
  · intro b m isNext
    by_cases isP : b = p
    · exact .inl (by simp [isP])
    · rw [Function.update_of_ne isP] at isNext
      by_cases isNew : b = a
      · exact .inl (by simp [isNew])
      · rw [Function.update_of_ne isNew] at isNext
        obtain ⟨j, mem⟩ := family.all b m isNext
        by_cases same : j = i
        · rw [same, split] at mem
          exact .inl (by simpa [isNew] using mem)
        · exact .inr ⟨j, same, mem⟩

/-- The node behind a node of a list is taken out of the list and of the store. -/
theorem Family.remove (family : Family null next header lists)
    (split : lists i = front ++ p :: c :: back) (isNext : next c = some n) :
    Family null (Function.update (Function.update next p (some n)) c none) header
      (Function.update lists i (front ++ p :: back)) := by
  have path := family.path i
  rw [split] at path
  have distinct := path.nodup
  have notC : c ∉ front ++ p :: back := by
    intro mem
    rcases List.mem_append.mp mem with inFront | inBack
    · exact (List.nodup_append.mp distinct).2.2 c inFront c (by simp) rfl
    · have node := (List.nodup_append.mp distinct).2.1
      rcases List.mem_cons.mp inBack with rfl | later
      · exact (List.nodup_cons.mp node).1 (by simp)
      · exact (List.nodup_cons.mp (List.nodup_cons.mp node).2).1 later
  apply family.replace
  · exact (path.skip isNext).update_outside notC none
  · intro j other b mem
    have notIn : b ∉ lists i := fun mine => other (family.apart j i b mem mine)
    rw [split] at notIn
    have differs : b ≠ c ∧ b ≠ p := by
      constructor
      · rintro rfl
        exact notIn (by simp)
      · rintro rfl
        exact notIn (by simp)
    rw [Function.update_of_ne differs.1, Function.update_of_ne differs.2]
  · intro b mem
    refine .inl ?_
    rw [split]
    rcases List.mem_append.mp mem with inFront | inBack
    · exact List.mem_append_left _ inFront
    · rcases List.mem_cons.mp inBack with rfl | later
      · simp
      · simp [later]
  · intro b m isNext
    by_cases isC : b = c
    · rw [isC, Function.update_self] at isNext
      cases isNext
    · rw [Function.update_of_ne isC] at isNext
      by_cases isP : b = p
      · exact .inl (by simp [isP])
      · rw [Function.update_of_ne isP] at isNext
        obtain ⟨j, mem⟩ := family.all b m isNext
        by_cases same : j = i
        · rw [same, split] at mem
          exact .inl (by simpa [isC] using mem)
        · exact .inr ⟨j, same, mem⟩

/-- All nodes of a list but the first are taken out of the store. -/
theorem Family.clear (family : Family null next header lists)
    (split : lists i = header i :: l) :
    Family null (fun b => if b ∈ l then none else Function.update next (header i) (some null) b)
      header (Function.update lists i [header i]) := by
  have path := family.path i
  have notFirst : header i ∉ l := by
    have distinct := path.nodup
    rw [split] at distinct
    exact (List.nodup_cons.mp distinct).1
  apply family.replace
  · refine ⟨rfl, family.present i, null, ?_, rfl⟩
    dsimp only
    rw [if_neg notFirst, Function.update_self]
  · intro j other b mem
    have notIn : b ∉ header i :: l := by
      rw [← split]
      exact fun mine => other (family.apart j i b mem mine)
    rw [List.mem_cons, not_or] at notIn
    rw [if_neg notIn.2, Function.update_of_ne notIn.1]
  · intro b mem
    rw [List.mem_singleton.mp mem, split]
    exact .inl List.mem_cons_self
  · intro b m isNext
    split at isNext
    · cases isNext
    · rename_i notIn
      by_cases isFirst : b = header i
      · exact .inl (List.mem_singleton.mpr isFirst)
      · rw [Function.update_of_ne isFirst] at isNext
        obtain ⟨j, mem⟩ := family.all b m isNext
        by_cases same : j = i
        · rw [same, split] at mem
          rcases List.mem_cons.mp mem with first | inList
          · exact absurd first isFirst
          · exact absurd inList notIn
        · exact .inr ⟨j, same, mem⟩

end ListFamily

end CodeLearning

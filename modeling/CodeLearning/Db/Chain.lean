import CodeLearning.Db.Layout
import CodeLearning.Db.Map
import CodeLearning.Lib.LinkedList
import Mathlib.Data.Finset.Card
import Mathlib.Order.Interval.Finset.Nat

/-!
# Lists of index records

The part of the index file that one lock protects: the first pointer of a list and the
records that belong to the list. `Part.Walk` says that following the pointers visits exactly
these records, and `Chain` what a hash chain means in the map. The lemmas say what unlinking,
linking in and overwriting a record make of both.
-/

namespace CodeLearning

namespace Db

open Decimal LinkedList

/-- The pointer to the first record of a list, and the records that belong to the list. -/
structure Part where
  /-- Offset of the first record. -/
  head : Nat
  /-- The records by offset. -/
  entries : Nat → Option Entry

namespace Part

/-- Successor of a record. -/
def next (A : Part) (o : Nat) : Option Nat := (A.entries o).map fun e => e.ptr

/-- The list with another first record. -/
def setHead (A : Part) (v : Nat) : Part := { A with head := v }

/-- The list with a record put at an offset. -/
def put (A : Part) (o : Nat) (e : Entry) : Part :=
  { A with entries := Function.update A.entries o (some e) }

/-- The list without the record at an offset. -/
def erase (A : Part) (o : Nat) : Part :=
  { A with entries := Function.update A.entries o none }

/-- The list with another successor after a record, or first when there is none. -/
def setLink (A : Part) (link : Option Nat) (v : Nat) : Part :=
  match link with
  | none => A.setHead v
  | some b =>
    { A with
      entries := Function.update A.entries b ((A.entries b).map fun e => { e with ptr := v }) }

/-- Following the pointers visits the offsets in order, and these are all the records. -/
structure Walk (A : Part) (l : List Nat) : Prop where
  /-- The pointers. -/
  path : Path 0 A.next A.head l
  /-- The records. -/
  mem : ∀ o, o ∈ l ↔ ∃ e, A.entries o = some e

variable {A : Part} {l front back : List Nat} {o : Nat} {e : Entry} {kv : KV}
  {h : Fin nhashDef}

/-- The successor of a record is the one its pointer gives. -/
theorem next_eq (found : A.entries o = some e) : A.next o = some e.ptr := by
  simp [next, found]

/-- Putting a record sets its successor. -/
theorem next_put (A : Part) (o : Nat) (e : Entry) :
    (A.put o e).next = Function.update A.next o (some e.ptr) := by
  funext x
  by_cases same : x = o
  · simp [next, put, same]
  · simp [next, put, Function.update_of_ne same]

/-- Removing a record leaves it no successor. -/
theorem next_erase (A : Part) (o : Nat) :
    (A.erase o).next = Function.update A.next o none := by
  funext x
  by_cases same : x = o
  · simp [next, erase, same]
  · simp [next, erase, Function.update_of_ne same]

/-- Setting a link after a record sets its successor. -/
theorem next_setLink {b : Nat} {e : Entry} (found : A.entries b = some e) (v : Nat) :
    (A.setLink (some b) v).next = Function.update A.next b (some v) := by
  funext x
  by_cases same : x = b
  · simp [next, setLink, same, found]
  · simp [next, setLink, Function.update_of_ne same]

/-- Records visited are within the bound of the pointers. -/
theorem path_le {bound a : Nat} (ptr_le : ∀ o e, A.entries o = some e → e.ptr ≤ bound)
    (path : Path 0 A.next a l) (le : a ≤ bound) : ∀ o ∈ l, o ≤ bound := by
  induction l generalizing a with
  | nil => exact fun o mem => absurd mem List.not_mem_nil
  | cons b l rest =>
    obtain ⟨rfl, -, n, found, tail⟩ := path
    intro o mem
    rcases List.mem_cons.mp mem with same | later
    · rw [same]
      exact le
    · cases entry : A.entries a with
      | none => simp [next, entry] at found
      | some e =>
        rw [next_eq entry] at found
        apply rest tail _ o later
        rw [← Option.some.inj found]
        exact ptr_le a e entry

/-- A list is no longer than the bound of its pointers. -/
theorem Walk.length_le {bound : Nat} (walk : A.Walk l) (head_le : A.head ≤ bound)
    (ptr_le : ∀ o e, A.entries o = some e → e.ptr ≤ bound) : l.length ≤ bound := by
  have subset : l.toFinset ⊆ Finset.Icc 1 bound := by
    intro o mem
    have inList := List.mem_toFinset.mp mem
    have nonnull := walk.path.ne_null inList
    have le := path_le ptr_le walk.path head_le o inList
    rw [Finset.mem_Icc]
    omega
  have card := Finset.card_le_card subset
  rw [List.toFinset_card_of_nodup walk.path.nodup, Nat.card_Icc] at card
  omega

/-- A record of a list is not the one before it. -/
theorem Walk.link_ne (walk : A.Walk (front ++ o :: back)) : front.getLast? ≠ some o := by
  intro last
  have mem : o ∈ front := List.mem_of_getLast? last
  have distinct := walk.path.nodup
  rw [List.nodup_append] at distinct
  exact distinct.2.2 o mem o List.mem_cons_self rfl

/-- The record before a record of a list is on the list. -/
theorem Walk.link_entry {b : Nat} (walk : A.Walk (front ++ o :: back))
    (last : front.getLast? = some b) : ∃ e, A.entries b = some e := by
  apply (walk.mem b).mp
  exact List.mem_append_left _ (List.mem_of_getLast? last)

/-- Unlinking a record. -/
theorem Walk.unlink (walk : A.Walk (front ++ o :: back)) (found : A.entries o = some e) :
    ((A.setLink front.getLast? e.ptr).erase o).Walk (front ++ back) := by
  have distinct := walk.path.nodup
  have tail : Path 0 A.next e.ptr back := by
    obtain ⟨-, -, n, succ, tail⟩ := walk.path.suffix
    rw [next_eq found] at succ
    rw [Option.some.inj succ]
    exact tail
  have off : o ∉ front ++ back := by
    intro mem
    rw [List.nodup_append] at distinct
    rcases List.mem_append.mp mem with inFront | inBack
    · exact distinct.2.2 o inFront o List.mem_cons_self rfl
    · exact (List.nodup_cons.mp distinct.2.1).1 inBack
  have members : ∀ x, x ∈ front ++ back ↔ x ≠ o ∧ ∃ e, A.entries x = some e := by
    intro x
    rw [← walk.mem x]
    constructor
    · intro mem
      refine ⟨fun same => off (same ▸ mem), ?_⟩
      rw [List.mem_append] at mem ⊢
      rcases mem with inFront | inBack
      · exact .inl inFront
      · exact .inr (List.mem_cons_of_mem o inBack)
    · rintro ⟨differ, mem⟩
      rw [List.mem_append, List.mem_cons] at mem
      rw [List.mem_append]
      rcases mem with inFront | same | inBack
      · exact .inl inFront
      · exact absurd same differ
      · exact .inr inBack
  cases last : front.getLast? with
  | none =>
    have empty : front = [] := List.getLast?_eq_none_iff.mp last
    subst empty
    constructor
    · rw [next_erase]
      exact tail.update_outside off none
    · intro x
      rw [members x]
      by_cases same : x = o
      · simp [same, erase]
      · simp [erase, setLink, setHead, same]
  | some b =>
    obtain ⟨eb, entry⟩ := walk.link_entry last
    have front_eq : front = front.dropLast ++ [b] :=
      (List.dropLast_append_getLast? b last).symm
    have differ : b ≠ o := fun same => walk.link_ne (same ▸ last)
    constructor
    · rw [next_erase, next_setLink entry]
      apply Path.update_outside _ off
      have path : Path 0 A.next A.head (front.dropLast ++ b :: (o :: back)) := by
        have path := walk.path
        rw [front_eq, List.append_assoc] at path
        exact path
      have outside : b ∉ back := by
        intro mem
        have inFront : b ∈ front := List.mem_of_getLast? last
        rw [List.nodup_append] at distinct
        exact distinct.2.2 b inFront b (List.mem_cons_of_mem o mem) rfl
      have redirected := path.redirect tail outside
      have whole : front.dropLast ++ b :: back = front ++ back := by
        conv_rhs => rw [front_eq]
        rw [List.append_assoc, List.singleton_append]
      rw [← whole]
      exact redirected
    · intro x
      rw [members x]
      by_cases same : x = o
      · simp [same, erase]
      · by_cases isB : x = b
        · simp [isB, differ, erase, setLink, entry]
        · simp [erase, setLink, Function.update_of_ne isB, same]

/-- Linking a record in at the front. -/
theorem Walk.push (walk : A.Walk l) (new : A.entries o = none) (nonnull : o ≠ 0)
    (points : e.ptr = A.head) : ((A.put o e).setHead o).Walk (o :: l) := by
  have outside : o ∉ l := by
    intro mem
    obtain ⟨e', found⟩ := (walk.mem o).mp mem
    rw [new] at found
    cases found
  constructor
  · refine ⟨rfl, nonnull, e.ptr, ?_, ?_⟩
    · simp [setHead, put, next]
    · show Path 0 (A.put o e).next e.ptr l
      rw [next_put, points]
      exact walk.path.update_outside outside _
  · intro x
    rw [List.mem_cons, walk.mem x]
    by_cases same : x = o
    · simp [same, setHead, put]
    · simp [same, setHead, put]

/-- Overwriting a record without changing its pointer. -/
theorem Walk.overwrite {e' : Entry} (walk : A.Walk l) (found : A.entries o = some e)
    (samePtr : e'.ptr = e.ptr) : (A.put o e').Walk l := by
  have sameNext : (A.put o e').next = A.next := by
    rw [next_put, samePtr, ← next_eq found, Function.update_eq_self]
  constructor
  · rw [sameNext]
    exact walk.path
  · intro x
    rw [walk.mem x]
    by_cases same : x = o
    · simp [same, put, found]
    · simp [put, Function.update_of_ne same]

/-- Setting a link keeps what records say but for their pointers. -/
theorem entries_setLink {link : Option Nat} {v : Nat} {x : Nat} {e' : Entry}
    (found : (A.setLink link v).entries x = some e') :
    ∃ e₀, A.entries x = some e₀ ∧ e'.key = e₀.key ∧ e'.data = e₀.data := by
  cases link with
  | none => exact ⟨e', found, rfl, rfl⟩
  | some b =>
    by_cases same : x = b
    · subst same
      simp only [setLink, Function.update_self, Option.map_eq_some_iff] at found
      obtain ⟨e₀, found₀, rfl⟩ := found
      exact ⟨e₀, found₀, rfl, rfl⟩
    · simp only [setLink, Function.update_of_ne same] at found
      exact ⟨e', found, rfl, rfl⟩

/-- Setting a link keeps which records are there. -/
theorem exists_entries_setLink {link : Option Nat} {v : Nat} {x : Nat}
    (found : A.entries x = some e) : ∃ e', (A.setLink link v).entries x = some e' ∧
      e'.key = e.key ∧ e'.data = e.data := by
  cases link with
  | none => exact ⟨e, found, rfl, rfl⟩
  | some b =>
    by_cases same : x = b
    · subst same
      exact ⟨{ e with ptr := v }, by simp [setLink, found], rfl, rfl⟩
    · exact ⟨e, by simp only [setLink, Function.update_of_ne same]; exact found, rfl, rfl⟩

end Part

/-- A hash chain: the records on it have keys of the chain, without separators and all
different, and the map has their data and no other key of the chain. -/
structure Chain (A : Part) (h : Fin nhashDef) (kv : KV) : Prop where
  /-- The pointers reach all records. -/
  walk : ∃ l, A.Walk l
  /-- Records are on the chain of their key. -/
  hash : ∀ o e, A.entries o = some e → bucket e.key = h
  /-- Records can be read. -/
  plain : ∀ o e, A.entries o = some e → sep ∉ e.key
  /-- No key occurs twice. -/
  distinct : ∀ o e o' e', A.entries o = some e → A.entries o' = some e' → e.key = e'.key →
    o = o'
  /-- The map has the data of each record. -/
  present : ∀ o e, A.entries o = some e → kv e.key = some e.data
  /-- The map has no other key of the chain. -/
  absent : ∀ k, bucket k = h → (∀ o e, A.entries o = some e → e.key ≠ k) → kv k = none

/-- The free list: the keys of its records are blanks. -/
structure FreeList (A : Part) : Prop where
  /-- The pointers reach all records. -/
  walk : ∃ l, A.Walk l
  /-- Keys are blanks. -/
  blank : ∀ o e, A.entries o = some e → ∀ c ∈ e.key, c = space

/-- A chain whose first record cannot be read. -/
def Frozen (A : Part) : Prop := ∃ e, A.entries A.head = some e ∧ sep ∈ e.key

/-- A chain that no process is changing. -/
def ChainOk (A : Part) (h : Fin nhashDef) (kv : KV) : Prop := Frozen A ∨ Chain A h kv

namespace FreeList

variable {A : Part} {front back : List Nat} {o : Nat} {e : Entry}

/-- Free records can be read. -/
theorem plain (free : FreeList A) (o : Nat) (e : Entry) (found : A.entries o = some e) :
    sep ∉ e.key :=
  fun mem => absurd (free.blank o e found sep mem) (by decide)

/-- Unlinking a free record. -/
theorem unlink (free : FreeList A) (walk : A.Walk (front ++ o :: back))
    (found : A.entries o = some e) :
    FreeList ((A.setLink front.getLast? e.ptr).erase o) := by
  refine ⟨⟨_, walk.unlink found⟩, ?_⟩
  intro x e' found'
  by_cases same : x = o
  · simp [Part.erase, same] at found'
  · simp only [Part.erase, Function.update_of_ne same] at found'
    obtain ⟨e₀, found₀, key, -⟩ := Part.entries_setLink found'
    rw [key]
    exact free.blank x e₀ found₀

/-- Linking in a record whose key is blanks. -/
theorem push (free : FreeList A) (new : A.entries o = none) (nonnull : o ≠ 0)
    (points : e.ptr = A.head) (blank : ∀ c ∈ e.key, c = space) :
    FreeList ((A.put o e).setHead o) := by
  obtain ⟨l, walk⟩ := free.walk
  refine ⟨⟨_, walk.push new nonnull points⟩, ?_⟩
  intro x e' found
  by_cases same : x = o
  · rw [same] at found
    simp only [Part.setHead, Part.put, Function.update_self, Option.some.injEq] at found
    rw [← found]
    exact blank
  · simp only [Part.setHead, Part.put, Function.update_of_ne same] at found
    exact free.blank x e' found

end FreeList

namespace Chain

variable {A : Part} {l front back : List Nat} {o : Nat} {e : Entry} {kv kv' : KV}
  {h : Fin nhashDef} {d : Bytes}

/-- A chain that can be read is not frozen. -/
theorem not_frozen (chain : Chain A h kv) : ¬ Frozen A := by
  rintro ⟨e, found, mem⟩
  exact chain.plain A.head e found mem

/-- A chain depends on the map only at its own keys. -/
theorem congr (chain : Chain A h kv) (agree : ∀ k, bucket k = h → kv' k = kv k) :
    Chain A h kv' := by
  refine { chain with present := ?_, absent := ?_ }
  · intro o e found
    rw [agree e.key (chain.hash o e found)]
    exact chain.present o e found
  · intro k inChain none_
    rw [agree k inChain]
    exact chain.absent k inChain none_

/-- The record of a key of the map. -/
theorem exists_entry (chain : Chain A h kv) {key : Bytes} (inChain : bucket key = h)
    (isData : kv key = some d) : ∃ o e, A.entries o = some e ∧ e.key = key ∧ e.data = d := by
  by_contra none_
  have absent : kv key = none := by
    apply chain.absent key inChain
    intro o e found isKey
    have present := chain.present o e found
    rw [isKey, isData] at present
    exact none_ ⟨o, e, found, isKey, (Option.some.inj present).symm⟩
  rw [isData] at absent
  cases absent

/-- Unlinking the record of a key. -/
theorem unlink (chain : Chain A h kv) (walk : A.Walk (front ++ o :: back))
    (found : A.entries o = some e) :
    Chain ((A.setLink front.getLast? e.ptr).erase o) h (Function.update kv e.key none) := by
  -- A record left has the key and the data of an old one at the same offset.
  have left : ∀ x e', ((A.setLink front.getLast? e.ptr).erase o).entries x = some e' →
      x ≠ o ∧ ∃ e₀, A.entries x = some e₀ ∧ e'.key = e₀.key ∧ e'.data = e₀.data := by
    intro x e' found'
    by_cases same : x = o
    · simp [Part.erase, same] at found'
    · simp only [Part.erase, Function.update_of_ne same] at found'
      exact ⟨same, Part.entries_setLink found'⟩
  refine ⟨⟨_, walk.unlink found⟩, ?_, ?_, ?_, ?_, ?_⟩
  · intro x e' found'
    obtain ⟨-, e₀, found₀, key, -⟩ := left x e' found'
    rw [key]
    exact chain.hash x e₀ found₀
  · intro x e' found'
    obtain ⟨-, e₀, found₀, key, -⟩ := left x e' found'
    rw [key]
    exact chain.plain x e₀ found₀
  · intro x e₁ y e₂ found₁ found₂ same
    obtain ⟨-, e₁', found₁', key₁, -⟩ := left x e₁ found₁
    obtain ⟨-, e₂', found₂', key₂, -⟩ := left y e₂ found₂
    rw [key₁, key₂] at same
    exact chain.distinct x e₁' y e₂' found₁' found₂' same
  · intro x e' found'
    obtain ⟨differ, e₀, found₀, key, data⟩ := left x e' found'
    have otherKey : e'.key ≠ e.key := by
      rw [key]
      exact fun same => differ (chain.distinct x e₀ o e found₀ found same)
    rw [Function.update_of_ne otherKey, key, data]
    exact chain.present x e₀ found₀
  · intro k inChain none_
    by_cases isKey : k = e.key
    · rw [isKey, Function.update_self]
    · rw [Function.update_of_ne isKey]
      apply chain.absent k inChain
      intro x e₀ found₀
      by_cases same : x = o
      · subst same
        rw [Option.some.inj (found₀.symm.trans found)]
        exact fun eq => isKey eq.symm
      · obtain ⟨e', found', key, -⟩ := Part.exists_entries_setLink found₀
        rw [← key]
        apply none_ x e'
        simp only [Part.erase, Function.update_of_ne same]
        exact found'

/-- Linking in the record of a new key. -/
theorem push (chain : Chain A h kv) (new : A.entries o = none) (nonnull : o ≠ 0)
    (points : e.ptr = A.head) (hash : bucket e.key = h) (plain : sep ∉ e.key)
    (newKey : ∀ o' e', A.entries o' = some e' → e'.key ≠ e.key) :
    Chain ((A.put o e).setHead o) h (Function.update kv e.key (some e.data)) := by
  have cases_ : ∀ x e', ((A.put o e).setHead o).entries x = some e' →
      (x = o ∧ e' = e) ∨ (x ≠ o ∧ A.entries x = some e') := by
    intro x e' found
    by_cases same : x = o
    · rw [same] at found
      simp only [Part.setHead, Part.put, Function.update_self, Option.some.injEq] at found
      exact .inl ⟨same, found.symm⟩
    · simp only [Part.setHead, Part.put, Function.update_of_ne same] at found
      exact .inr ⟨same, found⟩
  obtain ⟨l, walk⟩ := chain.walk
  refine ⟨⟨_, walk.push new nonnull points⟩, ?_, ?_, ?_, ?_, ?_⟩
  · intro x e' found
    rcases cases_ x e' found with ⟨-, rfl⟩ | ⟨-, old⟩
    · exact hash
    · exact chain.hash x e' old
  · intro x e' found
    rcases cases_ x e' found with ⟨-, rfl⟩ | ⟨-, old⟩
    · exact plain
    · exact chain.plain x e' old
  · intro x e₁ y e₂ found₁ found₂ same
    rcases cases_ x e₁ found₁ with ⟨rfl, rfl⟩ | ⟨-, old₁⟩
    · rcases cases_ y e₂ found₂ with ⟨rfl, -⟩ | ⟨-, old₂⟩
      · rfl
      · exact absurd same.symm (newKey y e₂ old₂)
    · rcases cases_ y e₂ found₂ with ⟨-, rfl⟩ | ⟨-, old₂⟩
      · exact absurd same (newKey x e₁ old₁)
      · exact chain.distinct x e₁ y e₂ old₁ old₂ same
  · intro x e' found
    rcases cases_ x e' found with ⟨-, rfl⟩ | ⟨-, old⟩
    · rw [Function.update_self]
    · rw [Function.update_of_ne (newKey x e' old)]
      exact chain.present x e' old
  · intro k inChain none_
    have isNew : k ≠ e.key := by
      rintro rfl
      exact none_ o e (by simp [Part.setHead, Part.put]) rfl
    rw [Function.update_of_ne isNew]
    apply chain.absent k inChain
    intro x e' old
    have differ : x ≠ o := by
      rintro rfl
      rw [new] at old
      cases old
    apply none_ x e'
    simp only [Part.setHead, Part.put, Function.update_of_ne differ]
    exact old

/-- Overwriting the data of a key. -/
theorem overwrite (chain : Chain A h kv) (found : A.entries o = some e) :
    Chain (A.put o { e with data := d }) h (Function.update kv e.key (some d)) := by
  have cases_ : ∀ x e', (A.put o { e with data := d }).entries x = some e' →
      (x = o ∧ e' = { e with data := d }) ∨ (x ≠ o ∧ A.entries x = some e') := by
    intro x e' found'
    by_cases same : x = o
    · rw [same] at found'
      simp only [Part.put, Function.update_self, Option.some.injEq] at found'
      exact .inl ⟨same, found'.symm⟩
    · simp only [Part.put, Function.update_of_ne same] at found'
      exact .inr ⟨same, found'⟩
  -- Every record has the key it had.
  have keys : ∀ x e', (A.put o { e with data := d }).entries x = some e' →
      ∃ e₀, A.entries x = some e₀ ∧ e'.key = e₀.key := by
    intro x e' found'
    rcases cases_ x e' found' with ⟨rfl, rfl⟩ | ⟨-, old⟩
    · exact ⟨e, found, rfl⟩
    · exact ⟨e', old, rfl⟩
  obtain ⟨l, walk⟩ := chain.walk
  refine ⟨⟨l, walk.overwrite found rfl⟩, ?_, ?_, ?_, ?_, ?_⟩
  · intro x e' found'
    obtain ⟨e₀, old, key⟩ := keys x e' found'
    rw [key]
    exact chain.hash x e₀ old
  · intro x e' found'
    obtain ⟨e₀, old, key⟩ := keys x e' found'
    rw [key]
    exact chain.plain x e₀ old
  · intro x e₁ y e₂ found₁ found₂ same
    obtain ⟨e₁', old₁, key₁⟩ := keys x e₁ found₁
    obtain ⟨e₂', old₂, key₂⟩ := keys y e₂ found₂
    rw [key₁, key₂] at same
    exact chain.distinct x e₁' y e₂' old₁ old₂ same
  · intro x e' found'
    rcases cases_ x e' found' with ⟨-, rfl⟩ | ⟨differ, old⟩
    · exact Function.update_self ..
    · have otherKey : e'.key ≠ e.key := fun same =>
        differ (chain.distinct x e' o e old found same)
      rw [Function.update_of_ne otherKey]
      exact chain.present x e' old
  · intro k inChain none_
    have isOther : k ≠ e.key := by
      rintro rfl
      exact none_ o { e with data := d } (by simp [Part.put]) rfl
    rw [Function.update_of_ne isOther]
    apply chain.absent k inChain
    intro x e₀ old
    by_cases same : x = o
    · subst same
      rw [Option.some.inj (old.symm.trans found)]
      exact fun eq => isOther eq.symm
    · apply none_ x e₀
      simp only [Part.put, Function.update_of_ne same]
      exact old

end Chain

end Db

end CodeLearning

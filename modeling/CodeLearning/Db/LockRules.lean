import CodeLearning.Db.Rules

/-!
# Rules for locks and reads

Taking a lock tells its process what the list means; dropping one gives back a list that
means something again. A request takes effect when its process unlocks the chain. What a
process reads from a list it has locked is what the records of the list say.
-/

namespace CodeLearning

namespace Db

open FileProgram ByteFile

variable {P : Type} [DecidableEq P]

/-- The lock of a list. -/
def Place.lockRange (c : Place) : Range := ⟨c.off, 1⟩

/-- The lock of a list is the lock of no other list. -/
theorem Place.lockRange_contains {c c' : Place} : c.lockRange.Contains c'.off ↔ c' = c := by
  constructor
  · intro inside
    apply Place.off_injective
    simp only [lockRange, Range.Contains] at inside
    omega
  · rintro rfl
    simp [lockRange, Range.Contains]

section Locks

variable {α : Type} {g : Setting P} {p q : P} {s t : State P} {c : Place} {file : File}
  {range : Range} {mode : LockMode} {post : α → State P → Prop}
  {fail : Failure → State P → Prop} {rest : Unit → DbProg α}

/-- Locks of the process itself. -/
theorem locks_setLocks_self (m : Option LockMode) (f : File) (b : Nat) :
    (s.setLocks p file range m).locks p f b =
      if f = file ∧ range.Contains b then m else s.locks p f b := by
  simp [State.setLocks, World.setLocks]

/-- Locks of other processes. -/
theorem locks_setLocks_other (other : q ≠ p) (m : Option LockMode) :
    (s.setLocks p file range m).locks q = s.locks q := by
  funext f b
  simp [State.setLocks, World.setLocks, other]

/-- A lock for writing is compatible with no lock only. -/
theorem not_write_of_compatible {held : Option LockMode} (compatible : mode.Compatible held) :
    held ≠ some .write := by
  rintro rfl
  cases mode <;> exact compatible

/-- Taking a lock on bytes that the process has not locked. -/
theorem wp_lock (unheld : ∀ b, range.Contains b → s.locks p file b = none)
    (next : ∀ t, Rely p s t → Inv g t →
      (∀ c, file = .idx → range.Contains c.off → t.PartOk c) →
        g.wp p (rest ()) post fail (t.setLocks p file range (some mode))) :
    g.wp p (.op (.lock file mode range) rest) post fail s := by
  intro t rely inv enabled
  have unheldT : ∀ b, range.Contains b → t.locks p file b = none := by
    intro b inside
    rw [rely.locks]
    exact unheld b inside
  have notWritten : ∀ q b, range.Contains b → t.locks q file b ≠ some .write := by
    intro q b inside
    by_cases mine : q = p
    · rw [mine, unheldT b inside]
      simp
    · exact not_write_of_compatible (enabled q mine b inside)
  -- Whoever owned a list still owns it.
  have keeps : ∀ q f b, t.locks q f b = some .write →
      (t.setLocks p file range (some mode)).locks q f b = some .write := by
    intro q f b writes
    by_cases mine : q = p
    · subst mine
      rw [locks_setLocks_self, if_neg]
      · exact writes
      · rintro ⟨rfl, inside⟩
        exact notWritten q b inside writes
    · rw [locks_setLocks_other mine]
      exact writes
  refine ⟨t.setLocks p file range (some mode), rfl, ?_, ?_, ?_⟩
  · refine ⟨inv.layout, ?_, ?_, inv.history, inv.takes, inv.scripts,
      inv.plain, inv.whole⟩
    · intro c nobody
      exact inv.lists c fun q mine => nobody q (keeps q .idx c.off mine)
    · intro q r f b differ writes
      by_cases mine : q = p
      · subst mine
        rw [locks_setLocks_other differ.symm]
        rw [locks_setLocks_self] at writes
        by_cases inside : f = file ∧ range.Contains b
        · obtain ⟨rfl, inside⟩ := inside
          rw [if_pos ⟨rfl, inside⟩] at writes
          have compatible := enabled r differ.symm b inside
          rw [Option.some.inj writes] at compatible
          cases held : t.locks r f b with
          | none => rfl
          | some m =>
            have conflict : LockMode.Compatible .write (some m) := held ▸ compatible
            cases m <;> exact absurd conflict id
        · rw [if_neg inside] at writes
          exact inv.exclusive q r f b differ writes
      · rw [locks_setLocks_other mine] at writes
        by_cases theirs : r = p
        · subst theirs
          rw [locks_setLocks_self]
          by_cases inside : f = file ∧ range.Contains b
          · obtain ⟨rfl, inside⟩ := inside
            exact absurd writes (notWritten q b inside)
          · rw [if_neg inside]
            exact inv.exclusive q r f b differ writes
        · rw [locks_setLocks_other theirs]
          exact inv.exclusive q r f b differ writes
  · exact inv.guarantee (t.setLocks p file range (some mode))
      (fun q other => locks_setLocks_other other _) (fun _ => .inl rfl) (fun _ => .inl rfl)
      (fun _ _ => rfl) (fun _ _ => rfl) (fun _ _ => rfl) (fun _ => .inl rfl)
  · apply next t rely inv
    intro c isIdx inside
    subst isIdx
    exact inv.lists c fun q mine => notWritten q c.off inside mine

/-- A lock not dropped is still held. -/
theorem sees_of_setLocks_none (sees : (s.setLocks p file range none).Sees p c) :
    s.Sees p c ∧ ¬ (File.idx = file ∧ range.Contains c.off) := by
  rw [State.Sees, locks_setLocks_self] at sees
  by_cases inside : File.idx = file ∧ range.Contains c.off
  · rw [if_pos inside] at sees
    exact absurd rfl sees
  · rw [if_neg inside] at sees
    exact ⟨sees, inside⟩

/-- A process that still may append to a file could before it dropped a lock. -/
theorem appends_of_setLocks_none {f : File}
    (appends : (s.setLocks p file range none).Appends p f) : s.Appends p f := by
  cases f with
  | idx =>
    rw [State.Appends, locks_setLocks_self] at appends
    split at appends
    · cases appends
    · exact appends
  | dat =>
    rw [State.Appends, locks_setLocks_self] at appends
    split at appends
    · cases appends
    · exact appends

/-- Dropping a lock keeps that locks for writing exclude others. -/
theorem exclusive_setLocks_none (inv : Inv g t) (p₁ p₂ : P) (f : File) (b : Nat)
    (differ : p₁ ≠ p₂)
    (writes : (t.setLocks p file range none).locks p₁ f b = some .write) :
    (t.setLocks p file range none).locks p₂ f b = none := by
  have before : t.locks p₁ f b = some .write := by
    by_cases mine : p₁ = p
    · subst mine
      rw [locks_setLocks_self] at writes
      split at writes
      · cases writes
      · exact writes
    · rw [locks_setLocks_other mine] at writes
      exact writes
  have excluded := inv.exclusive p₁ p₂ f b differ before
  by_cases theirs : p₂ = p
  · subst theirs
    rw [locks_setLocks_self]
    split
    · rfl
    · exact excluded
  · rw [locks_setLocks_other theirs]
    exact excluded

/-- A list that nobody owns after a lock is dropped was the process's own, or nobody's. -/
theorem owner_before_drop (nobody : ∀ q, ¬ (t.setLocks p file range none).Owns q c) :
    (t.Owns p c ∧ File.idx = file ∧ range.Contains c.off) ∨ ∀ q, ¬ t.Owns q c := by
  by_cases owned : t.Owns p c
  · left
    refine ⟨owned, ?_⟩
    by_contra outside
    apply nobody p
    rw [State.Owns, locks_setLocks_self, if_neg outside]
    exact owned
  · right
    intro q mine
    by_cases self : q = p
    · exact owned (self ▸ mine)
    · apply nobody q
      rw [State.Owns, locks_setLocks_other self]
      exact mine

/-- Dropping a lock, once the lists it protects mean something. -/
theorem wp_unlock (lists : ∀ c, file = .idx → range.Contains c.off → s.Owns p c → s.PartOk c)
    (next : g.wp p (rest ()) post fail (s.setLocks p file range none)) :
    g.wp p (.op (.unlock file range) rest) post fail s := by
  apply Logic.wp_update (fun t => t.setLocks p file range none) (fun _ _ _ => rfl) _ next
  intro t rely inv _
  refine ⟨rfl, ?_, ?_, ?_⟩
  · refine ⟨inv.layout, ?_, exclusive_setLocks_none inv, inv.history, inv.takes, inv.scripts,
      inv.plain, inv.whole⟩
    intro c nobody
    rcases owner_before_drop nobody with ⟨mine, isIdx, inside⟩ | nobody'
    · have owns : s.Owns p c := by
        rw [State.Owns, ← rely.locks]
        exact mine
      exact (rely.partOk owns.sees).mpr (lists c isIdx.symm inside owns)
    · exact inv.lists c nobody'
  · exact inv.guarantee (t.setLocks p file range none)
      (fun q other => locks_setLocks_other other _) (fun _ => .inl rfl) (fun _ => .inl rfl)
      (fun _ _ => rfl) (fun _ _ => rfl) (fun _ _ => rfl) (fun _ => .inl rfl)
  · refine { rely with locks := ?_, part := ?_, kv := ?_, size := ?_, alone := ?_ }
    · funext f b
      rw [locks_setLocks_self, locks_setLocks_self, rely.locks]
    · exact fun c sees => rely.part c (sees_of_setLocks_none sees).1
    · exact fun k sees => rely.kv k (sees_of_setLocks_none sees).1
    · exact fun f appends => rely.size f (appends_of_setLocks_none appends)
    · exact fun single => by rw [rely.alone single]

/-- A request takes effect as its process unlocks the chain of its key. -/
theorem wp_commit {h : Fin nhashDef} {request : Request} (inChain : bucket request.key = h)
    (sees : s.Sees p (.chain h))
    (right : s.Owns p (.chain h) ∨ ∀ kv, (mapStep kv request).2 = kv)
    (due : ∀ result,
      Follows (g.script p) (ownRequests s.hist p ++ [(request, result)]) (ownReturns s.log p))
    (ok : ChainOk (s.part (.chain h)) h (mapStep s.kv request).2)
    (next : g.wp p (rest ()) post fail (s.commit p (Place.chain h).lockRange request)) :
    g.wp p (.op (.unlock .idx (Place.chain h).lockRange) rest) post fail s := by
  apply Logic.wp_update (fun t => t.commit p (Place.chain h).lockRange request)
    (fun _ _ _ => rfl) _ next
  intro t rely inv _
  have agree : t.kv request.key = s.kv request.key := rely.kv request.key (inChain ▸ sees)
  have answer : (mapStep t.kv request).1 = (mapStep s.kv request).1 := mapStep_answer agree
  have after_ : ∀ k, bucket k = h → (mapStep t.kv request).2 k = (mapStep s.kv request).2 k := by
    intro k inH
    by_cases same : k = request.key
    · rw [same]
      exact mapStep_self agree
    · rw [mapStep_other t.kv same, mapStep_other s.kv same]
      exact rely.kv k (inH ▸ sees)
  have other : ∀ k, bucket k ≠ h → (mapStep t.kv request).2 k = t.kv k := by
    intro k notH
    apply mapStep_other
    rintro rfl
    exact notH inChain
  refine ⟨rfl, ?_, ?_, ?_⟩
  · refine ⟨inv.layout, ?_, exclusive_setLocks_none inv, inv.history.append p request, inv.takes,
      ?_, inv.plain, inv.whole⟩
    swap
    · intro q
      show Follows (g.script q) (ownRequests (t.hist ++ [(p, request, _)]) q) (ownReturns t.log q)
      by_cases mine : q = p
      · subst mine
        rw [ownRequests_append_self, rely.requests, rely.returns]
        exact due _
      · rw [ownRequests_append_other t.hist mine]
        exact inv.scripts q
    intro c nobody
    by_cases isChain : c = .chain h
    · subst isChain
      show ChainOk (t.part (.chain h)) h (mapStep t.kv request).2
      rw [rely.part _ sees]
      rcases ok with frozen | chain
      · exact .inl frozen
      · exact .inr (chain.congr after_)
    · have nobody' : ∀ q, ¬ t.Owns q c := by
        rcases owner_before_drop nobody with ⟨-, -, inside⟩ | nobody'
        · exact absurd (Place.lockRange_contains.mp inside) isChain
        · exact nobody'
      have same : (t.commit p (Place.chain h).lockRange request).PartOk c ↔ t.PartOk c := by
        refine State.partOk_congr (show _ = t.part c from rfl) ?_
        intro k isBucket
        apply other
        rintro rfl
        exact isChain isBucket
      exact same.mpr (inv.lists c nobody')
  · apply inv.guarantee (t.commit p (Place.chain h).lockRange request)
      (fun q other => locks_setLocks_other other _) (fun _ => .inl rfl) _ (fun _ _ => rfl)
    · exact fun q differ => ownRequests_append_other t.hist differ _
    · exact fun _ _ => rfl
    · exact fun _ => .inl rfl
    · intro k
      rcases right with owns | reads
      · by_cases inH : bucket k = h
        · exact .inr (inH ▸ rely.owns owns)
        · exact .inl (other k inH)
      · left
        show (mapStep t.kv request).2 k = t.kv k
        rw [reads]
  · refine
      { rely with locks := ?_, part := ?_, kv := ?_, requests := ?_, size := ?_, alone := ?_ }
    · funext f b
      show (t.setLocks p .idx _ none).locks p f b = (s.setLocks p .idx _ none).locks p f b
      rw [locks_setLocks_self, locks_setLocks_self, rely.locks]
    · exact fun c sees => rely.part c (sees_of_setLocks_none sees).1
    · intro k seesK
      have held := (sees_of_setLocks_none (s := s) seesK).1
      have notH : bucket k ≠ h := by
        rintro rfl
        exact (sees_of_setLocks_none (s := s) seesK).2 ⟨rfl, Place.lockRange_contains.mpr rfl⟩
      show (mapStep t.kv request).2 k = (mapStep s.kv request).2 k
      have notKey : k ≠ request.key := by
        rintro rfl
        exact notH inChain
      rw [mapStep_other t.kv notKey, mapStep_other s.kv notKey]
      exact rely.kv k held
    · show ownRequests (t.hist ++ [(p, request, _)]) p = ownRequests (s.hist ++ [(p, request, _)]) p
      rw [ownRequests_append_self, ownRequests_append_self, rely.requests, answer]
    · exact fun f appends => rely.size f (appends_of_setLocks_none appends)
    · exact fun single => by rw [rely.alone single]

end Locks

/-! ## Reads -/

section Reads

variable {α : Type} {g : Setting P} {p : P} {s : State P} {c : Place} {o : Nat} {e : Entry}
  {post : α → State P → Prop} {fail : Failure → State P → Prop}

/-- The pointers of a locked list are within reach, and its records are valid and lie after
the table. -/
theorem wp_sound {prog : DbProg α} (sees : s.Sees p c)
    (next : s.head c ≤ ptrMax →
      (∀ o e, (s.part c).entries o = some e → e.Valid ∧ tableEnd ≤ o) →
        g.wp p prog post fail s) : g.wp p prog post fail s := by
  have known : ∀ t, Rely p s t → Inv g t → s.head c ≤ ptrMax ∧
      ∀ o e, (s.part c).entries o = some e → e.Valid ∧ tableEnd ≤ o := by
    intro t rely inv
    constructor
    · have sameHead : t.head c = s.head c := congrArg Part.head (rely.part c sees)
      rw [← sameHead]
      exact inv.layout.head_le c
    · intro o e found
      have recT := rely.entry sees found
      exact ⟨inv.layout.valid o e recT, inv.layout.past o e recT⟩
  apply Logic.wp_fact known
  rintro ⟨small, records⟩
  exact next small records

/-- A record of a locked list is valid and lies after the table. -/
theorem wp_valid {prog : DbProg α} (sees : s.Sees p c) (found : (s.part c).entries o = some e)
    (next : e.Valid → tableEnd ≤ o → g.wp p prog post fail s) : g.wp p prog post fail s := by
  apply wp_sound sees
  intro _ records
  exact next (records o e found).1 (records o e found).2

/-- Reading the pointer to the first record of a locked list. -/
theorem wp_readHead {rest : Bytes → DbProg α} (sees : s.Sees p c)
    (next : g.wp p (rest (ptrText (s.head c))) post fail s) :
    g.wp p (.op (.read .idx c.off ptrSz) rest) post fail s := by
  apply Logic.wp_look (fun _ => rfl) _ next
  intro t rely inv
  have sameHead : t.head c = s.head c := congrArg Part.head (rely.part c sees)
  have width := length_ptrText (inv.layout.head_le c)
  have answer := (inv.layout.cells c).readAt_eq
  rw [width, sameHead] at answer
  exact answer

/-- Reading the fixed fields of a record of a locked list. -/
theorem wp_readFixed {rest : Bytes → DbProg α} (sees : s.Sees p c)
    (found : (s.part c).entries o = some e) (next : g.wp p (rest e.fixed) post fail s) :
    g.wp p (.op (.read .idx o (ptrSz + idxlenSz)) rest) post fail s := by
  apply Logic.wp_look (fun _ => rfl) _ next
  intro t rely inv
  have recT := rely.entry sees found
  have stands := (holds_append.mp (inv.layout.index o e recT)).1
  have answer := stands.readAt_eq
  rw [(inv.layout.valid o e recT).length_fixed] at answer
  exact answer

/-- Reading a record of a locked list from its key on. -/
theorem wp_readLine {rest : Bytes → DbProg α} (sees : s.Sees p c)
    (found : (s.part c).entries o = some e) (next : g.wp p (rest e.line) post fail s) :
    g.wp p (.op (.read .idx (o + (ptrSz + idxlenSz)) e.line.length) rest) post fail s := by
  apply Logic.wp_look (fun _ => rfl) _ next
  intro t rely inv
  have recT := rely.entry sees found
  have stands := (holds_append.mp (inv.layout.index o e recT)).2
  rw [(inv.layout.valid o e recT).length_fixed] at stands
  exact stands.readAt_eq

/-- Reading the data of a record of a locked list. -/
theorem wp_readData {rest : Bytes → DbProg α} (sees : s.Sees p c)
    (found : (s.part c).entries o = some e) (next : g.wp p (rest e.datText) post fail s) :
    g.wp p (.op (.read .dat e.datoff (e.data.length + 1)) rest) post fail s := by
  apply Logic.wp_look (fun _ => rfl) _ next
  intro t rely inv
  have answer := (inv.layout.entry_data (rely.entry sees found)).readAt_eq
  rw [Slot.length_datText] at answer
  exact answer

/-- The size of a file that the process may append to. -/
theorem wp_size {file : File} {rest : Nat → DbProg α} (appends : s.Appends p file)
    (next : g.wp p (rest (s.files file).length) post fail s) :
    g.wp p (.op (.size file) rest) post fail s := by
  apply Logic.wp_look (fun _ => rfl) _ next
  intro t rely _
  exact rely.size file appends

end Reads

end Db

end CodeLearning

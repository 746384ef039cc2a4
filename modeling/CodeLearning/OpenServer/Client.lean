import Mathlib.Data.List.Basic
import Mathlib.Tactic.Common

/-!
# The client table of the open server

`control_client.c` keeps one array of clients, grown by `NALLOC` entries at a time. An
entry whose descriptor is `-1` is free and is reused by the next client. A fresh entry has
no user id yet: `malloc` and `realloc` leave it indeterminate, which is `none` here, and
`client_del` frees an entry without touching its user id.

Both server loops report what they do through `log_msg` and `handle_request`; the log of
these calls, newest first, is the part of a run that the outside sees. Which user a
descriptor belongs to is decided by the log: the user of the last connection that
`serv_accept` reported on it.
-/

namespace CodeLearning.OpenServer

/-- Growth step of the client array and of the `pollfd` array. -/
def nalloc : Nat := 10

/-- `Client`: a descriptor, `-1` when the entry is free, and a user id. -/
structure Client where
  /-- Descriptor. -/
  fd : Int
  /-- User id; `none` while the entry has never been filled. -/
  uid : Option Nat
deriving DecidableEq, Repr

/-- `client_alloc`: append `NALLOC` free entries. The array is `NULL` exactly while it has
no entry. -/
def clientAlloc (client : List Client) : List Client :=
  client ++ List.replicate nalloc ⟨-1, none⟩

/-- The scan of `client_add`: the first free entry. -/
def freeEntry (client : List Client) : Option Nat :=
  client.findIdx? fun entry => entry.fd = -1

/-- `client_add`: fill the first free entry, growing the array when there is none. -/
def clientAdd (client : List Client) (fd : Int) (uid : Nat) : Nat × List Client :=
  match freeEntry client with
  | some i => (i, client.set i ⟨fd, some uid⟩)
  | none =>
    -- the scan after `client_alloc` stops at the first new entry
    (client.length, (clientAlloc client).set client.length ⟨fd, some uid⟩)

/-- `client_del`: free the first entry with this descriptor; `none` is the `log_quit` at the
end of the function. -/
def clientDel (client : List Client) (fd : Int) : Option (List Client) :=
  match client.findIdx? fun entry => entry.fd = fd with
  | some i => some (client.modify i fun entry => { entry with fd := -1 })
  | none => none

/-! ## What the outside sees -/

/-- One observable action of the server. -/
inductive Event where
  /-- `serv_accept` returned a descriptor and reported a user. -/
  | accepted (fd : Int) (uid : Nat)
  /-- `handle_request` was called with these bytes, descriptor and user id. -/
  | request (buf : List UInt8) (fd : Int) (uid : Option Nat)
  /-- `log_msg("closed: uid %d, fd %d")` before the descriptor is closed. -/
  | closed (fd : Int) (uid : Option Nat)
deriving DecidableEq, Repr

/-- The user that `serv_accept` reported when the descriptor was last accepted. -/
def acceptedUid : List Event → Int → Option Nat
  | [], _ => none
  | .accepted fd uid :: rest, f => if fd = f then some uid else acceptedUid rest f
  | .request .. :: rest, f => acceptedUid rest f
  | .closed .. :: rest, f => acceptedUid rest f

/-- The descriptor was accepted and not closed since. -/
def isOpen : List Event → Int → Bool
  | [], _ => false
  | .accepted fd _ :: rest, f => if fd = f then true else isOpen rest f
  | .request .. :: rest, f => isOpen rest f
  | .closed fd _ :: rest, f => if fd = f then false else isOpen rest f

/-- Every request and every close carried the user of its descriptor. -/
def Identified : List Event → Prop
  | [] => True
  | .accepted .. :: rest => Identified rest
  | .request _ fd uid :: rest => uid = acceptedUid rest fd ∧ Identified rest
  | .closed fd uid :: rest => uid = acceptedUid rest fd ∧ Identified rest

/-- Identification of a log is decidable. -/
instance decidableIdentified : (log : List Event) → Decidable (Identified log)
  | [] => isTrue trivial
  | .accepted _ _ :: rest => decidableIdentified rest
  | .request _ fd uid :: rest =>
    have := decidableIdentified rest
    inferInstanceAs (Decidable (uid = acceptedUid rest fd ∧ Identified rest))
  | .closed fd uid :: rest =>
    have := decidableIdentified rest
    inferInstanceAs (Decidable (uid = acceptedUid rest fd ∧ Identified rest))

/-- How a process leaves a loop. -/
inductive Exit where
  /-- `log_sys` after a failed call. -/
  | logSys
  /-- `log_quit` in `client_del`. -/
  | logQuit
  /-- An array element beyond the allocated entries was read. -/
  | outOfBounds
deriving DecidableEq, Repr

/-- Result of `read` on a client descriptor. -/
inductive ReadResult where
  /-- Negative count. -/
  | failed
  /-- Zero: the client hung up. -/
  | hungUp
  /-- Some bytes. -/
  | data (buf : List UInt8)
deriving DecidableEq, Repr

/-! ## The scans of the table -/

/-- An entry of the table at an index, if the index is allocated. -/
abbrev entryAt (client : List Client) (i : Nat) : Option Client := client[i]?

/-- What `client_add` returns: the index was free or new, the entry there is the new client,
and every other entry is an old one or a fresh free one. -/
theorem clientAdd_spec (client : List Client) (fd : Int) (uid : Nat) :
    entryAt (clientAdd client fd uid).2 (clientAdd client fd uid).1 = some ⟨fd, some uid⟩ ∧
      (∀ entry, entryAt client (clientAdd client fd uid).1 = some entry → entry.fd = -1) ∧
      ∀ j, j ≠ (clientAdd client fd uid).1 →
        entryAt (clientAdd client fd uid).2 j = entryAt client j ∨
        (entryAt client j = none ∧
          ∃ entry, entryAt (clientAdd client fd uid).2 j = some entry ∧ entry.fd = -1) := by
  unfold clientAdd
  cases found : freeEntry client with
  | some i =>
    obtain ⟨inside, free, -⟩ := List.findIdx?_eq_some_iff_getElem.mp found
    simp only [entryAt]
    refine ⟨by simp [inside], ?_, ?_⟩
    · intro entry here
      rw [List.getElem?_eq_getElem inside] at here
      cases here
      simpa using free
    · intro j apart
      exact Or.inl (List.getElem?_set_ne (Ne.symm apart))
  | none =>
    simp only [entryAt, clientAlloc]
    refine ⟨by simp [nalloc], by simp, ?_⟩
    intro j apart
    rw [List.getElem?_set_ne (Ne.symm apart)]
    by_cases inside : j < client.length
    · exact Or.inl (List.getElem?_append_left inside)
    · rw [List.getElem?_append_right (by omega), List.getElem?_replicate]
      by_cases fresh : j - client.length < nalloc
      · exact Or.inr ⟨by simp; omega, ⟨-1, none⟩, by simp [fresh], rfl⟩
      · left
        simp [fresh]
        omega

/-- `client_add` keeps every index of the table and covers the one it returns. -/
theorem clientAdd_length (client : List Client) (fd : Int) (uid : Nat) :
    client.length ≤ (clientAdd client fd uid).2.length ∧
      (clientAdd client fd uid).1 < (clientAdd client fd uid).2.length := by
  unfold clientAdd
  cases found : freeEntry client with
  | some i =>
    obtain ⟨inside, -⟩ := List.findIdx?_eq_some_iff_getElem.mp found
    simp [inside]
  | none => simp [clientAlloc, nalloc]

/-- Where the descriptor occurs in one entry only, `client_del` frees that entry, keeps its
user id, and leaves the others alone. -/
theorem clientDel_spec {client : List Client} {i : Nat} {entry : Client}
    (here : entryAt client i = some entry)
    (only : ∀ j other, entryAt client j = some other → other.fd = entry.fd → j = i) :
    ∃ client', clientDel client entry.fd = some client' ∧
      entryAt client' i = some { entry with fd := -1 } ∧
      client'.length = client.length ∧
      ∀ j, j ≠ i → entryAt client' j = entryAt client j := by
  unfold clientDel
  cases found : client.findIdx? fun e => decide (e.fd = entry.fd) with
  | none =>
    exfalso
    have none_match := List.findIdx?_eq_none_iff.mp found entry (List.mem_of_getElem? here)
    simp at none_match
  | some k =>
    obtain ⟨inside, matched, -⟩ := List.findIdx?_eq_some_iff_getElem.mp found
    obtain rfl : k = i :=
      only k client[k] (List.getElem?_eq_getElem inside) (by simpa using matched)
    refine ⟨_, rfl, ?_, by simp, ?_⟩
    · simp only [entryAt] at here ⊢
      rw [List.getElem?_modify_eq, here]
      rfl
    · intro j apart
      exact List.getElem?_modify_ne _ _ (Ne.symm apart)

end CodeLearning.OpenServer

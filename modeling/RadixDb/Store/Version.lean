import Mathlib

/-!
# Row versions and version chains

A row's history is a chain of versions, newest first (version_store/mod.rs). Each version names
the transaction that created it and, if it is a delete, the transaction that deleted the row; the
head may also name an arena slot that holds a copy of its data.

`VersionChain.read` is **what a chain means**: walk it from the head, take the first version whose
creator the viewer sees; the row is present with that version's data unless the version's delete
marker is visible too. It mentions no arena and no slot, and every read of the store is measured
against it.

Visibility enters as a predicate on transaction ids, `vis`: what the viewer's registry answers.
-/

namespace RadixDb

variable {V : Type}

/-- One version of a row. `V` is the type of a cell. -/
structure RowVersion (V : Type) where
  txnId : Int
  deletedAtTxnId : Int
  data : List V
  createTime : Int
deriving DecidableEq, Repr

namespace RowVersion

def newWithTimestamp (txnId : Int) (data : List V) (createTime : Int) : RowVersion V :=
  ⟨txnId, 0, data, createTime⟩

def newDeletedWithTimestamp (txnId : Int) (data : List V) (createTime : Int) : RowVersion V :=
  ⟨txnId, txnId, data, createTime⟩

def isDeleted (v : RowVersion V) : Bool := v.deletedAtTxnId != 0

/-- A version as the constructors build it: a delete marker is its own creator's. -/
def OwnMarker (v : RowVersion V) : Prop := v.deletedAtTxnId = 0 ∨ v.deletedAtTxnId = v.txnId

theorem OwnMarker.marker_eq {v : RowVersion V} (h : v.OwnMarker) (hd : v.isDeleted = true) :
    v.deletedAtTxnId = v.txnId := by
  rcases h with h0 | h1
  · simp [isDeleted, h0] at hd
  · exact h1

/-- Whether a viewer that sees the version's creator finds the row deleted by it. -/
def hiddenFrom (v : RowVersion V) (vis : Int → Bool) : Bool :=
  v.isDeleted && vis v.deletedAtTxnId

/-- A visible version that does not hide the row is live: its delete marker would be its own. -/
theorem OwnMarker.live_of_shown {v : RowVersion V} (h : v.OwnMarker) {vis : Int → Bool}
    (hvis : vis v.txnId = true) (hhid : v.hiddenFrom vis = false) : v.isDeleted = false := by
  by_contra hd
  have hd : v.isDeleted = true := by simpa using hd
  simp [hiddenFrom, hd, h.marker_eq hd, hvis] at hhid

end RowVersion

/-- A version as it may be published: its delete marker, if any, is its creator's. -/
abbrev PublishedVersion (V : Type) := { v : RowVersion V // v.OwnMarker }

/-- Versions to be published, each with its row. -/
abbrev Batch (V : Type) := List (Int × PublishedVersion V)

/-- A version that deletes nothing. -/
def PublishedVersion.live {V : Type} (txnId : Int) (data : List V) (now : Int) :
    PublishedVersion V :=
  ⟨.newWithTimestamp txnId data now, .inl rfl⟩

/-- A link of a chain: a version, and the arena slot that holds its data, if any. -/
structure ChainNode (V : Type) where
  version : RowVersion V
  arenaIdx : Option Nat
deriving DecidableEq, Repr

/-- A row's history: the newest version and its predecessors, newest first. -/
structure VersionChain (V : Type) where
  head : ChainNode V
  prev : List (ChainNode V)
deriving DecidableEq, Repr

namespace VersionChain

def nodes (c : VersionChain V) : List (ChainNode V) := c.head :: c.prev

/-- `count_chain_depth`. -/
def depth (c : VersionChain V) : Nat := c.nodes.length

/-- The version a viewer's walk stops at. -/
def firstVisible (vis : Int → Bool) (c : VersionChain V) : Option (ChainNode V) :=
  c.nodes.find? fun n => vis n.version.txnId

/-- **What a chain means to a viewer.** -/
def read (vis : Int → Bool) (c : VersionChain V) : Option (RowVersion V) :=
  match c.firstVisible vis with
  | none => none
  | some n => if n.version.hiddenFrom vis then none else some n.version

variable {c : VersionChain V} {vis : Int → Bool}

theorem read_of_head (h : vis c.head.version.txnId = true) :
    c.read vis = if c.head.version.hiddenFrom vis then none else some c.head.version := by
  simp [read, firstVisible, nodes, h]

theorem read_of_not_head {n : ChainNode V}
    {rest : List (ChainNode V)} (h : vis c.head.version.txnId = false) (hp : c.prev = n :: rest) :
    c.read vis = (⟨n, rest⟩ : VersionChain V).read vis := by
  simp [read, firstVisible, nodes, h, hp]

end VersionChain

end RadixDb

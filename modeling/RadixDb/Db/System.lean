import RadixDb.Registry.World
import RadixDb.Store.Cut

/-!
# A registry and a table

`Db` puts a transaction registry (with its threads' caches) beside one version store. The store
asks the registry what a viewer sees (`Db.sees`) and which transactions are active
(`Db.checker`); nothing else connects the two. An operation is a call on either, taken whole.

A commit reaches the store as one publication: all versions of the transaction, by
`add_version_single` if there is one and by `add_versions_batch` otherwise (private.rs,
`commit_retaining_claims`).
-/

namespace RadixDb

variable {V : Type}

namespace VersionStore

/-- The part of a commit that reaches the store. -/
def publish (s : VersionStore V) (batch : Batch V) :
    VersionStore V × Except StoreError Unit :=
  match batch with
  | [p] => s.addVersionSingle p.1 p.2
  | _ => s.addVersionsBatch batch

/-- Either way each version goes on top of its row, in order. -/
theorem publish_eq {s : VersionStore V} (h : s.closed = false) (batch : Batch V) :
    (s.publish batch).1 = s.addAll batch := by
  unfold publish
  split <;> simp [addVersionSingle, addVersionsBatch, addAll, guarded, h]

end VersionStore

structure Db (V : Type) where
  world : World
  store : VersionStore V

inductive DbOp (V : Type) where
  | registry (op : RegistryOp)
  | publish (batch : Batch V)
  | claim (rowId txnId : Int)
  | release (rowId txnId : Int)
  | cleanupDeletedRows (retention : Nat) (now : Int)
  | cleanupOldPreviousVersions (retention : Nat) (now : Int)

/-- What an operation returned. -/
inductive DbOutcome where
  | registry (outcome : RegistryOutcome)
  | store (res : Except StoreError Unit)
  | cleaned (count : Nat)
  | done

namespace Db

def registry (db : Db V) : TransactionRegistry := db.world.registry

/-- Whether a viewer sees the versions `v` created. -/
def sees (db : Db V) (viewer v : Int) : Bool := db.registry.visible v viewer

/-- The registry as the store's maintenance asks it. -/
def checker (db : Db V) : VisibilityChecker where
  isVisible := db.registry.visible
  getActiveTransactionIds := db.registry.getActiveTransactionIds

/-- A viewer's point read. -/
def getVisibleVersion (db : Db V) (viewer rowId : Int) : Option (RowVersion V) :=
  db.store.getVisibleVersion (db.sees viewer) rowId

def step (db : Db V) : DbOp V → Db V × DbOutcome
  | .registry op =>
    let (world, outcome) := db.world.step op
    ({ db with world := world }, .registry outcome)
  | .publish batch =>
    let (store, res) := db.store.publish batch
    ({ db with store := store }, .store res)
  | .claim row t =>
    let (store, res) := db.store.tryClaimRow row t
    ({ db with store := store }, .store res)
  | .release row t => ({ db with store := db.store.releaseRowClaim row t }, .done)
  | .cleanupDeletedRows retention now =>
    let (store, n) := db.store.cleanupDeletedRows db.checker retention now
    ({ db with store := store }, .cleaned n)
  | .cleanupOldPreviousVersions retention now =>
    let (store, n) := db.store.cleanupOldPreviousVersionsWithRetention db.checker retention now
    ({ db with store := store }, .cleaned n)

end Db

end RadixDb

import RadixDb.Db.Transaction

/-!
# What is recorded of reads

A transaction's write set remembers, for each row it has written, what it read of the row and when.
`G` is any fact about such a pair of moment and version. **The calls of a transaction record only
what was read: if every point read satisfies `G`, so does every write set** (`Observed`). All of
them but the commit also publish nothing (`Quiet`), which is what the commit check builds on.
-/

namespace RadixDb

variable {V : Type}

open TransactionRegistry VersionStore List

section

variable (G : Nat → RowVersion V → Prop)

/-- What an entry says was read, was read: `G` holds of the moment and the version. -/
def WriteSetEntry.Good (e : WriteSetEntry V) : Prop :=
  ∀ v, e.readVersion = some v → G e.observedAt v

def ReadResult.Good (r : ReadResult V) : Prop := ∀ v, r.version = some v → G r.moment v

/-- A store of transaction `t`: its versions are `t`'s, every row it has written is in the write
set, and what the write set says was read, was read. -/
structure TransactionVersionStore.Good (t : Int) (tx : TransactionVersionStore V) : Prop where
  own : ∀ row vs, tx.localVersions.lookup row = some vs → ∀ v ∈ vs, v.1.txnId = t
  tracked : ∀ row, row ∈ tx.localVersions → row ∈ tx.writeSet
  entries : ∀ row e, tx.writeSet.lookup row = some e → e.Good G

structure Observed (s : TxnDb V) : Prop where
  stores : ∀ t, (s.stores t).Good G t
  reads : ∀ t row r, (s.reads t).lookup row = some r → r.Good G

/-- What a point read returns at this moment is good. -/
def ReadsGood (s : TxnDb V) : Prop :=
  ∀ t row, (⟨s.db.getVisibleVersion t row, s.moment⟩ : ReadResult V).Good G

/-- Nothing is published: the registry, the tree and the slots stay, whoever is done with the table
stays so, and what is recorded of reads stays good. -/
structure Quiet (s s' : TxnDb V) : Prop where
  world : s'.db.world = s.db.world
  store : ∃ claims, s'.db.store = { s.db.store with uncommittedWrites := claims }
  terminal : ∀ t, (s.stores t).terminal = true → (s'.stores t).terminal = true
  observed : Observed G s → Observed G s'

variable {G} {s s' s'' : TxnDb V} {t row : Int} {tx : TransactionVersionStore V}
  {e : WriteSetEntry V}

theorem TransactionVersionStore.Good.setEntry (h : tx.Good G t) (he : e.Good G) :
    (tx.setEntry row e).Good G t := by
  refine ⟨h.own, fun x hx => (AList.mem_insert _).mpr (Or.inr (h.tracked x hx)), fun x e' hx => ?_⟩
  simp only [TransactionVersionStore.setEntry, Table.lookup_insert_if] at hx
  split at hx
  · cases hx
    exact he
  · exact h.entries x e' hx

theorem TransactionVersionStore.Good.removeEntry (h : tx.Good G t) (hno : row ∉ tx.localVersions) :
    (tx.removeEntry row).Good G t := by
  refine ⟨h.own, fun x hx => ?_, fun x e hx => ?_⟩
  · refine AList.mem_erase.mpr ⟨?_, h.tracked x hx⟩
    rintro rfl
    exact hno hx
  · simp only [TransactionVersionStore.removeEntry, Table.lookup_erase_if] at hx
    split at hx
    · cases hx
    · exact h.entries x e hx

theorem TransactionVersionStore.Good.insertLocal (h : tx.Good G t) (hrow : row ∈ tx.writeSet)
    {vs : List (PublishedVersion V)} (hvs : ∀ v ∈ vs, v.1.txnId = t) :
    TransactionVersionStore.Good G t
      { tx with localVersions := tx.localVersions.insert row vs } := by
  refine ⟨fun x ws hx => ?_, fun x hx => ?_, h.entries⟩
  · simp only [Table.lookup_insert_if] at hx
    split at hx
    · cases hx
      exact hvs
    · exact h.own x ws hx
  · rcases (AList.mem_insert _).mp hx with rfl | hx
    exacts [hrow, h.tracked x hx]

theorem TransactionVersionStore.Good.eraseLocal (h : tx.Good G t) :
    TransactionVersionStore.Good G t
      { tx with localVersions := tx.localVersions.erase row } := by
  refine ⟨fun x ws hx => ?_, fun x hx => h.tracked x (AList.mem_erase.mp hx).2, h.entries⟩
  simp only [Table.lookup_erase_if] at hx
  split at hx
  · cases hx
  · exact h.own x ws hx

variable {version : PublishedVersion V}

theorem TransactionVersionStore.Good.push (h : tx.Good G t) (hrow : row ∈ tx.writeSet)
    (hv : version.1.txnId = t) : (tx.push row version).Good G t := by
  refine h.insertLocal hrow fun v hmem => ?_
  rcases mem_append.mp hmem with hmem | hmem
  · cases hl : tx.localVersions.lookup row with
    | none => simp [hl] at hmem
    | some vs =>
      rw [hl, Option.getD_some] at hmem
      exact h.own row vs hl v hmem
  · rwa [mem_singleton.mp hmem]

theorem TransactionVersionStore.Good.withJournal (h : tx.Good G t) (journal : List (Int × Int)) :
    TransactionVersionStore.Good G t { tx with externalClaimJournal := journal } :=
  ⟨h.own, h.tracked, h.entries⟩

theorem TransactionVersionStore.mem_setEntry (tx : TransactionVersionStore V) (row : Int)
    (e : WriteSetEntry V) : row ∈ (tx.setEntry row e).writeSet :=
  (AList.mem_insert _).mpr (Or.inl rfl)

theorem WriteSetEntry.Good.complete (h : e.Good G) {r : ReadResult V} (hr : r.Good G) :
    (e.complete r).Good G := by
  unfold WriteSetEntry.complete
  split
  · exact hr
  · exact h

theorem TransactionVersionStore.good_closed :
    (TransactionVersionStore.closed : TransactionVersionStore V).Good G t :=
  ⟨fun _ _ h => absurd h (by simp [TransactionVersionStore.closed]),
    fun _ h => absurd h (by simp [TransactionVersionStore.closed]),
    fun _ _ h => absurd h (by simp [TransactionVersionStore.closed])⟩

theorem Observed.good_readFor (h : Observed G s) (hnow : ReadsGood G s) (t row : Int) :
    (s.readFor t row).Good G := by
  unfold TxnDb.readFor
  cases hr : (s.reads t).lookup row with
  | none => exact hnow t row
  | some r => exact h.reads t row r hr

theorem Quiet.refl (s : TxnDb V) : Quiet G s s := ⟨rfl, ⟨_, rfl⟩, fun _ => id, id⟩

theorem Quiet.trans (h : Quiet G s s') (h' : Quiet G s' s'') : Quiet G s s'' where
  world := h'.world.trans h.world
  store := by
    obtain ⟨claims, hc⟩ := h.store
    obtain ⟨claims', hc'⟩ := h'.store
    exact ⟨claims', by rw [hc', hc]⟩
  terminal t ht := h'.terminal t (h.terminal t ht)
  observed ho := h'.observed (h.observed ho)

theorem Quiet.setStore (hterm : (s.stores t).terminal = true → tx.terminal = true)
    (hgood : (s.stores t).Good G t → tx.Good G t) : Quiet G s (s.setStore t tx) where
  world := rfl
  store := ⟨_, rfl⟩
  terminal u hu := by
    by_cases h : u = t
    · subst h
      simpa [TxnDb.setStore] using hterm hu
    · simpa [TxnDb.setStore, h] using hu
  observed ho := by
    refine ⟨fun u => ?_, ho.reads⟩
    by_cases h : u = t
    · subst h
      simpa [TxnDb.setStore] using hgood (ho.stores u)
    · simpa [TxnDb.setStore, h] using ho.stores u

theorem Quiet.setParent {parent : VersionStore V}
    (h : ∃ claims, parent = { s.db.store with uncommittedWrites := claims }) :
    Quiet G s (s.setParent parent) :=
  ⟨rfl, h, fun _ => id, fun ho => ⟨ho.stores, ho.reads⟩⟩

theorem Quiet.setReads {reads : Table Int (ReadResult V)} (h : ∀ x r, reads.lookup x = some r →
      (s.reads t).lookup x = some r ∨ r.Good G) :
    Quiet G s { s with reads := Function.update s.reads t reads } := by
  refine ⟨rfl, ⟨_, rfl⟩, fun _ => id, fun ho => ⟨ho.stores, fun u x r hr => ?_⟩⟩
  by_cases hu : u = t
  · subst hu
    exact (h x r (by simpa using hr)).elim (ho.reads u x r) id
  · exact ho.reads u x r (by simpa [hu] using hr)

theorem Quiet.dropRead (t row : Int) : Quiet G s (s.dropRead t row) :=
  Quiet.setReads fun x r hr => .inl (by simp_all [Table.lookup_erase_if])

theorem Quiet.fetch (hnow : ReadsGood G s) (t row : Int) : Quiet G s (s.fetch t row) := by
  refine Quiet.setReads fun x r hr => ?_
  rw [Table.lookup_insert_if] at hr
  split_ifs at hr
  · exact .inr (Option.some.inj hr ▸ hnow t row)
  · exact .inl hr

/-! ### The calls that publish nothing -/

theorem txnId_writtenVersion (t : Int) (data : List V) (isDelete : Bool) (now : Int) :
    (writtenVersion t data isDelete now).1.txnId = t := by
  unfold writtenVersion
  split <;> rfl

theorem Quiet.push (hrow : row ∈ (s.stores t).writeSet) (hv : version.1.txnId = t) :
    Quiet G s (s.setStore t ((s.stores t).push row version)) :=
  Quiet.setStore id fun h => h.push hrow hv

theorem Quiet.forgetRow (hno : row ∉ (s.stores t).localVersions) : Quiet G s (s.forgetRow t row) :=
  (Quiet.setParent (releaseRowClaim_claims _ row t)).trans
    (Quiet.setStore id fun h => h.removeEntry hno)

theorem Quiet.putFirst (hv : version.1.txnId = t) {read : ReadResult V} (hread : read.Good G)
    (reserved : Except StoreError Unit) : Quiet G s (s.putFirst t row version read reserved).1 := by
  have hclaim : ∃ claims, (if read.version.isSome then s.db.store.tryClaimRow row t
      else (s.db.store, .ok ())).1 = { s.db.store with uncommittedWrites := claims } := by
    split
    · exact tryClaimRow_claims _ row t
    · exact ⟨_, rfl⟩
  unfold TxnDb.putFirst
  dsimp only
  split
  · exact Quiet.setParent hclaim
  split
  · refine Quiet.setParent ?_
    obtain ⟨claims, hc⟩ := hclaim
    rw [hc]
    split
    · obtain ⟨claims', hc'⟩ := releaseRowClaim_claims
        { s.db.store with uncommittedWrites := claims } row t
      exact ⟨claims', hc'⟩
    · exact ⟨claims, rfl⟩
  · exact (Quiet.setParent hclaim).trans
      (Quiet.setStore id fun h => (h.setEntry (e := .fromRead read) hread).push
        (TransactionVersionStore.mem_setEntry _ row _) hv)

theorem Quiet.putInternal (hnow : ReadsGood G s) (ho : Observed G s) (hv : version.1.txnId = t)
    (reserved : Except StoreError Unit) : Quiet G s (s.putInternal t row version reserved).1 := by
  unfold TxnDb.putInternal
  dsimp only
  split
  · exact Quiet.refl s
  split
  next hrow =>
    split
    · exact Quiet.refl s
    · exact Quiet.push (hrow.elim ((ho.stores t).tracked row) id) hv
  · exact (Quiet.dropRead t row).trans (Quiet.putFirst hv (ho.good_readFor hnow t row) reserved)

theorem Quiet.putWithOriginal (hnow : ReadsGood G s) (ho : Observed G s) (hv : version.1.txnId = t)
    (reserved : Except StoreError Unit) :
    Quiet G s (s.putWithOriginal t row version reserved).1 := by
  have hread := ho.good_readFor hnow t row
  unfold TxnDb.putWithOriginal
  dsimp only
  split
  · exact Quiet.refl s
  split
  next hrow =>
    split
    · exact Quiet.refl s
    · exact Quiet.push ((ho.stores t).tracked row hrow) hv
  · split
    · exact (Quiet.dropRead t row).trans (Quiet.putFirst hv hread reserved)
    · rename_i entry hentry
      have hfill := ((ho.stores t).entries row entry hentry).complete hread
      split
      · exact (Quiet.dropRead t row).trans (Quiet.setStore id fun h => h.setEntry hfill)
      · exact (Quiet.dropRead t row).trans (Quiet.setStore id fun h => (h.setEntry hfill).push
          (TransactionVersionStore.mem_setEntry _ row _) hv)

theorem Quiet.undoClaims : ∀ (rows : List Int) (s : TxnDb V),
    (∀ row ∈ rows, row ∉ (s.stores t).localVersions) →
      Quiet G s (rows.foldl (TxnDb.undoClaim t) s)
  | [], s, _ => Quiet.refl s
  | row :: rest, s, hno => by
    have hfirst : Quiet G s (s.undoClaim t row) :=
      (Quiet.forgetRow (hno row mem_cons_self)).trans
        (Quiet.setStore id fun h => h.withJournal _)
    refine hfirst.trans (Quiet.undoClaims rest _ fun x hx => ?_)
    have hkept : ((s.undoClaim t row).stores t).localVersions = (s.stores t).localVersions := by
      simp [TxnDb.undoClaim, TxnDb.forgetRow, TxnDb.setStore, TransactionVersionStore.removeEntry]
    rw [hkept]
    exact hno x (mem_cons_of_mem _ hx)

/-- A row that is claimed here was not in the write set, so it has no version. -/
theorem Quiet.claimRowsLoop {now : Int} : ∀ (rows claimedHere : List Int) (s : TxnDb V),
    Observed G s → (∀ row ∈ claimedHere, row ∉ (s.stores t).localVersions) →
      Quiet G s (TxnDb.claimRowsLoop t now rows claimedHere s).1
  | [], _, s, _, _ => Quiet.refl s
  | row :: rest, claimedHere, s, ho, hno => by
    have hclaim := tryClaimRow_claims s.db.store row t
    unfold TxnDb.claimRowsLoop
    split
    case isTrue => exact Quiet.claimRowsLoop rest claimedHere s ho hno
    case isFalse hnew =>
    split
    · exact Quiet.undoClaims claimedHere s hno
    · rename_i parent hok
      rw [hok] at hclaim
      have htrack : Quiet G s ((s.setParent parent).trackExternalClaim t row now) := by
        refine (Quiet.setParent hclaim).trans (Quiet.setStore id fun h => ?_)
        exact (h.setEntry (e := .claimed _) fun v hv => (by cases hv)).withJournal _
      have hlocal : (((s.setParent parent).trackExternalClaim t row now).stores t).localVersions =
          (s.stores t).localVersions := by
        simp [TxnDb.trackExternalClaim, TxnDb.setStore, TxnDb.setParent,
          TransactionVersionStore.setEntry]
      refine htrack.trans (Quiet.claimRowsLoop rest _ _ (htrack.observed ho) fun x hx => ?_)
      rw [hlocal]
      rcases mem_cons.mp hx with rfl | hx
      · exact fun hl => hnew ((ho.stores t).tracked x hl)
      · exact hno x hx

theorem Quiet.rollbackRow (t timestamp : Int) (s : TxnDb V) (row : Int) :
    Quiet G s (s.rollbackRow t timestamp row) := by
  unfold TxnDb.rollbackRow
  dsimp only
  split
  · exact Quiet.refl s
  next versions hvs =>
    split
    · refine Quiet.trans ?_ (Quiet.forgetRow ?_)
      · exact Quiet.setStore id fun h => h.eraseLocal
      · simp [TxnDb.setStore, AList.mem_erase]
    · exact Quiet.setStore id fun h =>
        h.insertLocal (h.tracked row (Table.mem_of_lookup hvs)) fun v hv =>
          h.own row versions hvs v (mem_of_mem_filter hv)

theorem Quiet.rollbackJournal {timestamp : Int} : ∀ (journal : List (Int × Int)) (s : TxnDb V),
    Quiet G s (TxnDb.rollbackJournal t timestamp journal s)
  | [], s => Quiet.setStore id fun h => h.withJournal _
  | (row, claimedAt) :: rest, s => by
    unfold TxnDb.rollbackJournal
    split
    · refine Quiet.trans ?_ (Quiet.rollbackJournal rest _)
      split
      case isTrue => exact Quiet.refl s
      case isFalse hno => exact Quiet.forgetRow hno
    · exact Quiet.setStore id fun h => h.withJournal _

theorem Quiet.rollbackToTimestamp (s : TxnDb V) (t timestamp : Int) :
    Quiet G s (s.rollbackToTimestamp t timestamp) := by
  unfold TxnDb.rollbackToTimestamp
  dsimp only
  split
  · exact Quiet.refl s
  · refine Quiet.trans ?_ (Quiet.rollbackJournal _ _)
    exact foldlRecOn (motive := Quiet G s) _ _ (Quiet.refl s)
      fun u hu x _ => hu.trans (Quiet.rollbackRow t timestamp u x)

theorem Quiet.discard (s : TxnDb V) (t : Int) : Quiet G s (s.discard t) := by
  refine Quiet.trans (Quiet.setParent ?_)
    (Quiet.setStore (fun _ => rfl) fun _ => TransactionVersionStore.good_closed)
  refine foldlRecOn (motive := fun st : VersionStore V =>
    ∃ claims, st = { s.db.store with uncommittedWrites := claims }) _ _ ⟨_, rfl⟩ ?_
  rintro _ ⟨claims, rfl⟩ row _
  exact (releaseRowClaim_claims { s.db.store with uncommittedWrites := claims } row t).imp
    fun _ h => h

end

end RadixDb

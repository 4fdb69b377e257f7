import RadixDb.Db.Transaction

/-!
# What the calls do to local versions

Of all that a transaction's calls do, its UNIQUE keys depend on two things: the versions it holds
and whether its store is still open. Each call either leaves the versions of all transactions alone
(`Untouched`), adds one version to one row of its own transaction (`WrittenTo`), or takes versions
of its own transaction away (`RolledBack`).
-/

namespace RadixDb

variable {V : Type}

/-! ## What the calls do to local versions -/

/-- No transaction's versions change. -/
structure Untouched (s s' : TxnDb V) : Prop where
  locals : ∀ u, (s'.stores u).localVersions = (s.stores u).localVersions
  terminal : ∀ u, (s'.stores u).terminal = (s.stores u).terminal

/-- Transaction `t` has a new version of a row, and nothing else changes. -/
structure WrittenTo (t row : Int) (version : PublishedVersion V) (s s' : TxnDb V) : Prop where
  active : (s.stores t).terminal = false
  self : (s'.stores t).localVersions = ((s.stores t).push row version).localVersions
  other : ∀ u, u ≠ t → (s'.stores u).localVersions = (s.stores u).localVersions
  terminal : ∀ u, (s'.stores u).terminal = (s.stores u).terminal

section

variable {s s' s'' : TxnDb V} {t row : Int} {tx : TransactionVersionStore V}
  {tx' : TransactionVersionStore V} {version : PublishedVersion V}

theorem Untouched.refl (s : TxnDb V) : Untouched s s := ⟨fun _ => rfl, fun _ => rfl⟩

theorem Untouched.trans (h : Untouched s s') (h' : Untouched s' s'') : Untouched s s'' :=
  ⟨fun u => (h'.locals u).trans (h.locals u), fun u => (h'.terminal u).trans (h.terminal u)⟩

theorem Untouched.of_stores (h : s'.stores = s.stores) : Untouched s s' :=
  ⟨fun u => by rw [h], fun u => by rw [h]⟩

theorem Untouched.setParent (s : TxnDb V) (parent : VersionStore V) :
    Untouched s (s.setParent parent) :=
  Untouched.of_stores rfl

theorem Untouched.dropRead (s : TxnDb V) (t row : Int) : Untouched s (s.dropRead t row) :=
  Untouched.of_stores rfl

theorem Untouched.setStore (hl : tx.localVersions = (s.stores t).localVersions)
    (ht : tx.terminal = (s.stores t).terminal) : Untouched s (s.setStore t tx) := by
  refine ⟨fun u => ?_, fun u => ?_⟩
  all_goals
    by_cases hu : u = t
    · subst hu
      simpa [TxnDb.setStore]
    · simp [TxnDb.setStore, hu]

theorem WrittenTo.setStore (hact : (s.stores t).terminal = false)
    (hl : tx.localVersions = ((s.stores t).push row version).localVersions)
    (ht : tx.terminal = (s.stores t).terminal) : WrittenTo t row version s (s.setStore t tx) := by
  refine ⟨hact, ?_, fun u hu => ?_, fun u => ?_⟩
  · simpa [TxnDb.setStore] using hl
  · simp [TxnDb.setStore, hu]
  · by_cases hu : u = t
    · subst hu
      simpa [TxnDb.setStore] using ht
    · simp [TxnDb.setStore, hu]

theorem WrittenTo.of_stores (h : WrittenTo t row version s' s'') (hs : s'.stores = s.stores) :
    WrittenTo t row version s s'' := by
  obtain ⟨h1, h2, h3, h4⟩ := h
  rw [hs] at h1 h2 h3 h4
  exact ⟨h1, h2, h3, h4⟩

/-- What a write can do: store the version, or change no versions. -/
def WriteCases (t row : Int) (version : PublishedVersion V) (reserved : Except StoreError Unit)
    (s : TxnDb V) (res : TxnDb V × Except StoreError Unit) : Prop :=
  (res.2 = .ok () ∧ reserved = .ok () ∧ WrittenTo t row version s res.1) ∨
    ((∃ e, res.2 = .error e) ∧ Untouched s res.1)

theorem putFirst_cases (hact : (s.stores t).terminal = false) (read : ReadResult V)
    (reserved : Except StoreError Unit) :
    WriteCases t row version reserved s (s.putFirst t row version read reserved) := by
  unfold TxnDb.putFirst
  dsimp only
  split
  · exact .inr ⟨⟨_, rfl⟩, Untouched.of_stores rfl⟩
  split
  · exact .inr ⟨⟨_, rfl⟩, Untouched.of_stores rfl⟩
  · exact .inl ⟨rfl, rfl, WrittenTo.of_stores (WrittenTo.setStore hact rfl rfl) rfl⟩

theorem WriteCases.of_stores {reserved : Except StoreError Unit}
    {res : TxnDb V × Except StoreError Unit} (h : WriteCases t row version reserved s' res)
    (hs : s'.stores = s.stores) : WriteCases t row version reserved s res :=
  h.imp (fun ⟨h1, h2, hw⟩ => ⟨h1, h2, hw.of_stores hs⟩)
    fun ⟨h1, hu⟩ => ⟨h1, (Untouched.of_stores hs).trans hu⟩

/-- A row that is known just gets the version, if its keys could be reserved. -/
theorem push_cases (hact : (s.stores t).terminal = false) (reserved : Except StoreError Unit) :
    WriteCases t row version reserved s
      (match reserved with
      | .error e => (s, .error e)
      | .ok () => (s.setStore t ((s.stores t).push row version), .ok ())) := by
  cases reserved with
  | error e => exact .inr ⟨⟨e, rfl⟩, Untouched.refl s⟩
  | ok => exact .inl ⟨rfl, rfl, WrittenTo.setStore hact rfl rfl⟩

variable (reserved : Except StoreError Unit)

theorem putInternal_cases :
    WriteCases t row version reserved s (s.putInternal t row version reserved) := by
  unfold TxnDb.putInternal
  dsimp only
  split
  · exact .inr ⟨⟨_, rfl⟩, Untouched.refl s⟩
  next hact =>
    have hact : (s.stores t).terminal = false := by simpa using hact
    split
    · exact push_cases hact reserved
    · exact (putFirst_cases (s := s.dropRead t row) hact _ reserved).of_stores rfl

theorem putWithOriginal_cases :
    WriteCases t row version reserved s (s.putWithOriginal t row version reserved) := by
  unfold TxnDb.putWithOriginal
  dsimp only
  split
  · exact .inr ⟨⟨_, rfl⟩, Untouched.refl s⟩
  next hact =>
    have hact : (s.stores t).terminal = false := by simpa using hact
    split
    · exact push_cases hact reserved
    split
    · exact (putFirst_cases (s := s.dropRead t row) hact _ reserved).of_stores rfl
    · split
      · refine .inr ⟨⟨_, rfl⟩, (Untouched.dropRead s t row).trans ?_⟩
        exact Untouched.setStore rfl rfl
      · exact .inl ⟨rfl, rfl, WrittenTo.of_stores
          (WrittenTo.setStore (s := s.dropRead t row) hact rfl rfl) rfl⟩

theorem Untouched.forgetRow (s : TxnDb V) (t row : Int) : Untouched s (s.forgetRow t row) := by
  refine (Untouched.setParent s (s.db.store.releaseRowClaim row t)).trans ?_
  exact Untouched.setStore rfl rfl

theorem Untouched.claimRowsLoop {now : Int} : ∀ (rows claimedHere : List Int) (s : TxnDb V),
    Untouched s (TxnDb.claimRowsLoop t now rows claimedHere s).1
  | [], _, s => Untouched.refl s
  | row :: rest, claimedHere, s => by
    unfold TxnDb.claimRowsLoop
    split
    · exact Untouched.claimRowsLoop rest claimedHere s
    split
    · refine List.foldlRecOn (motive := Untouched s) claimedHere _ (Untouched.refl s)
        fun u hu x _ => hu.trans ((Untouched.forgetRow u t x).trans ?_)
      exact Untouched.setStore rfl rfl
    · rename_i parent _
      refine Untouched.trans ?_ (Untouched.claimRowsLoop rest (row :: claimedHere) _)
      refine (Untouched.setParent s parent).trans ?_
      exact Untouched.setStore rfl rfl

theorem Untouched.claimRowsForOperation (s : TxnDb V) (t : Int) (rows : List Int) (now : Int) :
    Untouched s (s.claimRowsForOperation t rows now).1 := by
  unfold TxnDb.claimRowsForOperation
  split
  · exact Untouched.refl s
  · exact Untouched.claimRowsLoop _ _ s

/-! ### Rollback -/

/-- A version that the store holds of a row. -/
def TransactionVersionStore.Holds (tx : TransactionVersionStore V) (row : Int)
    (v : PublishedVersion V) : Prop :=
  ∃ vs, tx.localVersions.lookup row = some vs ∧ v ∈ vs

/-- Transaction `t` holds only what it held, and the other transactions are unchanged. -/
structure RolledBack (t : Int) (s s' : TxnDb V) : Prop where
  holds : ∀ row v, (s'.stores t).Holds row v → (s.stores t).Holds row v
  other : ∀ u, u ≠ t → (s'.stores u).localVersions = (s.stores u).localVersions
  terminal : ∀ u, (s'.stores u).terminal = (s.stores u).terminal

theorem RolledBack.trans (h : RolledBack t s s') (h' : RolledBack t s' s'') : RolledBack t s s'' :=
  ⟨fun row v hv => h.holds row v (h'.holds row v hv),
    fun u hu => (h'.other u hu).trans (h.other u hu),
    fun u => (h'.terminal u).trans (h.terminal u)⟩

theorem Untouched.rolledBack (h : Untouched s s') : RolledBack t s s' := by
  refine ⟨fun row v hv => ?_, fun u _ => h.locals u, h.terminal⟩
  obtain ⟨vs, hvs, hmem⟩ := hv
  exact ⟨vs, h.locals t ▸ hvs, hmem⟩

theorem RolledBack.setStore (hl : ∀ x v, tx.Holds x v → (s.stores t).Holds x v)
    (ht : tx.terminal = (s.stores t).terminal) : RolledBack t s (s.setStore t tx) := by
  refine ⟨fun x v hv => hl x v ?_, fun u hu => ?_, fun u => ?_⟩
  · simpa [TxnDb.setStore] using hv
  · simp [TxnDb.setStore, hu]
  · by_cases hu : u = t
    · subst hu
      simpa [TxnDb.setStore] using ht
    · simp [TxnDb.setStore, hu]

theorem RolledBack.rollbackRow (timestamp : Int) (s : TxnDb V) (row : Int) :
    RolledBack t s (s.rollbackRow t timestamp row) ∧
      ∀ v, ((s.rollbackRow t timestamp row).stores t).Holds row v → v.1.createTime ≤ timestamp := by
  unfold TxnDb.rollbackRow
  dsimp only
  split
  next hnone =>
    refine ⟨(Untouched.refl s).rolledBack, fun v hv => ?_⟩
    obtain ⟨vs, hvs, -⟩ := hv
    cases hnone.symm.trans hvs
  next versions hvs =>
    split
    · refine ⟨RolledBack.trans ?_ (Untouched.forgetRow _ t row).rolledBack, fun v hv => ?_⟩
      · refine RolledBack.setStore (fun x v hv => ?_) rfl
        obtain ⟨vs, hx, hmem⟩ := hv
        simp only [Table.lookup_erase_if] at hx
        split at hx
        · cases hx
        · exact ⟨vs, hx, hmem⟩
      · obtain ⟨vs, hx, -⟩ := hv
        rw [(Untouched.forgetRow _ t row).locals] at hx
        simp [TxnDb.setStore] at hx
    · refine ⟨RolledBack.setStore (fun x v hv => ?_) rfl, fun v hv => ?_⟩
      · obtain ⟨vs, hx, hmem⟩ := hv
        simp only [Table.lookup_insert_if] at hx
        split at hx
        next heq =>
          subst heq
          cases hx
          exact ⟨versions, hvs, List.mem_of_mem_filter hmem⟩
        next => exact ⟨vs, hx, hmem⟩
      · obtain ⟨vs, hx, hmem⟩ := hv
        simp only [TxnDb.setStore, Function.update_self, AList.lookup_insert] at hx
        cases hx
        simpa using (List.mem_filter.mp hmem).2

theorem RolledBack.rollbackRows (timestamp : Int) : ∀ (rows : List Int) (s : TxnDb V),
    RolledBack t s (rows.foldl (TxnDb.rollbackRow t timestamp) s) ∧ ∀ row ∈ rows, ∀ v,
      ((rows.foldl (TxnDb.rollbackRow t timestamp) s).stores t).Holds row v →
        v.1.createTime ≤ timestamp
  | [], s => ⟨(Untouched.refl s).rolledBack, fun _ h => (by cases h)⟩
  | x :: rest, s => by
    obtain ⟨hrest, htimes⟩ := RolledBack.rollbackRows timestamp rest (s.rollbackRow t timestamp x)
    obtain ⟨hfirst, htime⟩ := RolledBack.rollbackRow (t := t) timestamp s x
    refine ⟨hfirst.trans hrest, fun row hrow v hv => ?_⟩
    rcases List.mem_cons.mp hrow with rfl | hrow
    · exact htime v (hrest.holds row v hv)
    · exact htimes row hrow v hv

theorem Untouched.rollbackJournal (timestamp : Int) :
    ∀ (journal : List (Int × Int)) (s : TxnDb V),
    Untouched s (TxnDb.rollbackJournal t timestamp journal s)
  | [], s => Untouched.setStore rfl rfl
  | (row, claimedAt) :: rest, s => by
    unfold TxnDb.rollbackJournal
    split
    · refine Untouched.trans ?_ (Untouched.rollbackJournal timestamp rest _)
      split
      · exact Untouched.refl s
      · exact Untouched.forgetRow s t row
    · exact Untouched.setStore rfl rfl

/-- A rollback keeps versions up to its time, and only those. -/
theorem rollbackToTimestamp_spec (s : TxnDb V) (t timestamp : Int)
    (hact : (s.stores t).terminal = false) :
    RolledBack t s (s.rollbackToTimestamp t timestamp) ∧
      ∀ row v, ((s.rollbackToTimestamp t timestamp).stores t).Holds row v →
        v.1.createTime ≤ timestamp := by
  unfold TxnDb.rollbackToTimestamp
  simp only [hact, Bool.false_eq_true, if_false]
  obtain ⟨hrows, htimes⟩ := RolledBack.rollbackRows (t := t) timestamp
    (s.stores t).localVersions.sortedKeys s
  have hjournal := (Untouched.rollbackJournal (t := t) timestamp (s.stores t).externalClaimJournal
    ((s.stores t).localVersions.sortedKeys.foldl (TxnDb.rollbackRow t timestamp) s)).rolledBack
      (t := t)
  refine ⟨hrows.trans hjournal, fun row v hv => ?_⟩
  have hv := hjournal.holds row v hv
  obtain ⟨vs, hvs, -⟩ := hrows.holds row v hv
  exact htimes row (Table.mem_sortedKeys.mpr (Table.mem_of_lookup hvs)) v hv

/-! ### What a store holds -/

variable {v : PublishedVersion V}

theorem TransactionVersionStore.holds_getLocalVersion
    (h : tx.getLocalVersion row = some v) : tx.Holds row v := by
  obtain ⟨vs, hvs, hlast⟩ := Option.bind_eq_some_iff.mp h
  exact ⟨vs, hvs, List.mem_of_getLast? hlast⟩

theorem TransactionVersionStore.getLocalVersion_congr (hl : tx'.localVersions = tx.localVersions)
    (row : Int) : tx'.getLocalVersion row = tx.getLocalVersion row := by
  rw [TransactionVersionStore.getLocalVersion, hl]
  rfl

theorem TransactionVersionStore.Holds.congr (h : tx'.Holds row v)
    (hl : tx'.localVersions = tx.localVersions) : tx.Holds row v :=
  h.imp fun _ hvs => ⟨hl ▸ hvs.1, hvs.2⟩

variable (tx : TransactionVersionStore V) (row x : Int) (v : PublishedVersion V)

theorem TransactionVersionStore.lookup_push :
    (tx.push row v).localVersions.lookup x =
      if x = row then some ((tx.localVersions.lookup row).getD [] ++ [v])
      else tx.localVersions.lookup x :=
  Table.lookup_insert_if _ _ _ _

theorem TransactionVersionStore.getLocalVersion_push :
    (tx.push row v).getLocalVersion x =
      if x = row then some v else tx.getLocalVersion x := by
  rw [TransactionVersionStore.getLocalVersion, TransactionVersionStore.lookup_push]
  split
  · simp
  · rfl

theorem TransactionVersionStore.holds_push {w : PublishedVersion V} {x : Int}
    (h : (tx.push row v).Holds x w) : tx.Holds x w ∨ (x = row ∧ w = v) := by
  obtain ⟨vs, hvs, hmem⟩ := h
  rw [TransactionVersionStore.lookup_push] at hvs
  split at hvs
  next heq =>
    subst heq
    cases hvs
    rcases List.mem_append.mp hmem with hmem | hmem
    · cases hl : tx.localVersions.lookup x with
      | none => simp [hl] at hmem
      | some ws => exact .inl ⟨ws, hl, by simpa [hl] using hmem⟩
    · exact .inr ⟨rfl, List.mem_singleton.mp hmem⟩
  next => exact .inl ⟨vs, hvs, hmem⟩

end

end RadixDb

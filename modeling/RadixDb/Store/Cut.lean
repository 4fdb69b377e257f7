import RadixDb.Store.Reads

/-!
# Stores that have lost history

A vacuum takes versions out of the tree (lifecycle.rs): whole rows whose head is a delete, or the
older end of chains. What stays of each row is a beginning of its history. `CutOf full s` says
that of a store `s` and the store `full` from which nothing was taken; publications and both
vacuums keep it.

The slots of `s` are measured against the histories of `full`, because a slot goes on describing a
version that the tree has lost. With that, **a point read of the cut store is a point read of the
full one whenever the two histories mean the same to the viewer** (`CutOf.getVisibleVersion_eq`),
and a transaction on the vacuum's own list never notices the cut (`readVersions_cleanup…`).
-/

namespace RadixDb

open List

variable {V : Type}

/-! ## Histories -/

/-- What a list of versions, newest first, means to a viewer. -/
def readVersions (vis : Int → Bool) : List (RowVersion V) → Option (RowVersion V)
  | [] => none
  | v :: rest =>
    if vis v.txnId then (if v.hiddenFrom vis then none else some v) else readVersions vis rest

section

variable {vis : Int → Bool} {kept : List (RowVersion V)} (lost : List (RowVersion V))

theorem readVersions_append_of_visible (h : ∃ v ∈ kept, vis v.txnId = true) :
    readVersions vis (kept ++ lost) = readVersions vis kept := by
  induction kept with
  | nil => simp at h
  | cons v rest ih =>
    simp only [cons_append, readVersions]
    split
    · rfl
    · rename_i hv
      refine ih ?_
      obtain ⟨w, hw, hvis⟩ := h
      rcases mem_cons.mp hw with rfl | hw
      · exact absurd hvis hv
      · exact ⟨w, hw, hvis⟩

theorem readVersions_append_of_not_visible (h : ∀ v ∈ kept, vis v.txnId = false) :
    readVersions vis (kept ++ lost) = readVersions vis lost := by
  induction kept with
  | nil => rfl
  | cons v rest ih =>
    simp only [cons_append, readVersions, h v mem_cons_self]
    exact ih fun w hw => h w (mem_cons_of_mem _ hw)

/-- If every version a viewer sees is a delete it sees, the row is not there. -/
theorem readVersions_eq_none {vs : List (RowVersion V)}
    (h : ∀ v ∈ vs, vis v.txnId = true → v.hiddenFrom vis = true) : readVersions vis vs = none := by
  induction vs with
  | nil => rfl
  | cons v rest ih =>
    simp only [readVersions]
    split
    · rename_i hv
      rw [if_pos (h v mem_cons_self hv)]
    · exact ih fun w hw => h w (mem_cons_of_mem _ hw)

/-- **Losing versions a viewer reads nothing from changes nothing for it.** -/
theorem readVersions_append_eq {lost : List (RowVersion V)}
    (h : (∃ v ∈ kept, vis v.txnId = true) ∨ readVersions vis lost = none) :
    readVersions vis kept = readVersions vis (kept ++ lost) := by
  by_cases hk : ∃ v ∈ kept, vis v.txnId = true
  · exact (readVersions_append_of_visible lost hk).symm
  · have hno : ∀ v ∈ kept, vis v.txnId = false := fun v hv => by
      by_contra hvis
      exact hk ⟨v, hv, by simpa using hvis⟩
    rw [readVersions_append_of_not_visible lost hno, h.resolve_left hk]
    exact readVersions_eq_none fun v hv hvis => absurd hvis (by simp [hno v hv])

end

/-- The versions of a chain, newest first. -/
def VersionChain.versions (c : VersionChain V) : List (RowVersion V) := c.nodes.map (·.version)

theorem VersionChain.read_eq (vis : Int → Bool) (c : VersionChain V) :
    c.read vis = readVersions vis c.versions := by
  unfold VersionChain.read VersionChain.firstVisible VersionChain.versions
  induction c.nodes with
  | nil => rfl
  | cons n rest ih =>
    by_cases hv : vis n.version.txnId = true
    · simp [readVersions, hv]
    · simpa [readVersions, hv] using ih

namespace VersionStore

/-- A row's versions, newest first. -/
def history (s : VersionStore V) (rowId : Int) : List (RowVersion V) :=
  ((s.chain? rowId).map VersionChain.versions).getD []

variable {s : VersionStore V} {c : VersionChain V} {row : Int}

theorem history_of_chain (h : s.chain? row = some c) :
    s.history row = c.head.version :: c.prev.map (·.version) := by
  simp [history, h, VersionChain.versions, VersionChain.nodes]

theorem history_of_none (h : s.chain? row = none) : s.history row = [] := by
  simp [history, h]

theorem readsCreator_eq (s : VersionStore V) (vis : Int → Bool) (row : Int) :
    s.readsCreator vis row =
      (readVersions vis (s.history row)).map fun v => (v.txnId, v.data) := by
  unfold readsCreator history
  cases s.chain? row with
  | none => rfl
  | some c => simp [VersionChain.read_eq]

/-- A point read, in terms of the row's history. -/
theorem Ok.getVisibleVersion_data (h : s.Ok) (vis : Int → Bool) (row : Int) :
    (s.getVisibleVersion vis row).map (·.data) =
      (readVersions vis (s.history row)).map (·.data) := by
  have hread := congrArg (Option.map (·.2)) (@Ok.getVisibleVersion_eq _ s vis h row)
  rwa [readsCreator_eq, Option.map_map, Option.map_map] at hread

theorem Ok.own_history (h : s.Ok) {v : RowVersion V} (hv : v ∈ s.history row) : v.OwnMarker := by
  cases hc : s.chain? row with
  | none =>
    rw [history_of_none hc] at hv
    cases hv
  | some c =>
    simp only [history, hc, Option.map_some, Option.getD_some, VersionChain.versions, mem_map] at hv
    obtain ⟨n, hn, rfl⟩ := hv
    exact (h.chains row c hc).own n hn

theorem history_addVersionInner (h : s.maxVersionHistory = 0) (rowId : Int) (version : RowVersion V)
    (x : Int) :
    (s.addVersionInner rowId version).history x =
      if x = rowId then s.publishedVersion rowId version :: s.history rowId else s.history x := by
  simp only [history, chain?_addVersionInner h]
  split
  · simp only [Option.map_some, Option.getD_some, VersionChain.versions, VersionChain.nodes,
      map_cons, publishedBelow]
    cases s.chain? rowId <;> rfl
  · rfl

/-! ## Cut stores -/

/-- `s` is `full` with the older ends of some histories missing. -/
structure CutOf (full s : VersionStore V) : Prop where
  isOpen : s.closed = false
  unlimited : s.maxVersionHistory = 0
  kept : ∀ row, s.history row <+: full.history row
  removed : ∀ row f, s.chain? row = none → full.chain? row = some f →
    f.head.version.isDeleted = true
  arena : ArenaOk full.chain? s.slotOf s.arena

theorem CutOf.refl (h : s.Ok) : CutOf s s where
  isOpen := h.isOpen
  unlimited := h.unlimited
  kept _ := prefix_refl _
  removed row f hn hf := by
    cases hn.symm.trans hf
  arena := h.arena

section

variable {full s : VersionStore V} {vis : Int → Bool} {row : Int}

theorem CutOf.head (h : CutOf full s) (hc : s.chain? row = some c) :
    ∃ f, full.chain? row = some f ∧ f.head.version = c.head.version := by
  obtain ⟨lost, hlost⟩ := h.kept row
  rw [history_of_chain hc] at hlost
  cases hf : full.chain? row with
  | none =>
    rw [history_of_none hf] at hlost
    cases hlost
  | some f =>
    rw [history_of_chain hf, cons_append] at hlost
    exact ⟨f, rfl, (cons.inj hlost).1.symm⟩

/-- **A point read of a cut store.** If a row's history means the same to the viewer before and
after the cut, so does the point read, whether it answers from a slot or from the chain. -/
theorem CutOf.getVisibleVersion_eq (hfull : full.Ok) (h : CutOf full s)
    (hsame : readVersions vis (s.history row) = readVersions vis (full.history row)) :
    (s.getVisibleVersion vis row).map (fun v => (v.txnId, v.data)) =
      (full.getVisibleVersion vis row).map fun v => (v.txnId, v.data) := by
  rw [hfull.getVisibleVersion_eq]
  cases hp : s.probe vis row with
  | some slot =>
    obtain ⟨f, hf, hread⟩ :=
      probe_read h.arena (fun row f hf => (hfull.chains row f hf).own) hp
    simp only [getVisibleVersion, h.isOpen, hp, Bool.false_eq_true, if_false, readsCreator, hf,
      Option.bind_some, hread]
    split <;> rfl
  | none =>
    rw [readsCreator_eq, ← hsame, ← readsCreator_eq]
    refine getVisibleVersion_of_chain h.isOpen hp fun c hc => ?_
    obtain ⟨f, hf, hhead⟩ := h.head hc
    have hown := (hfull.chains row f hf).own f.head (by simp [VersionChain.nodes])
    exact ⟨hhead ▸ hown,
      nodeRow_head h.arena (fun f' hf' => by cases hf.symm.trans hf'; exact hhead) hc⟩

end

/-! ## Publications keep a cut a cut -/

section

variable {full s : VersionStore V} {rowId : Int} {version : RowVersion V}

theorem CutOf.publishedVersion_eq (h : CutOf full s) (hp : full.Publishable rowId version) :
    s.publishedVersion rowId version = full.publishedVersion rowId version := by
  cases hc : s.chain? rowId with
  | some c =>
    obtain ⟨f, hf, hhead⟩ := h.head hc
    simp [publishedVersion, hc, hf, hhead]
  | none =>
    cases hf : full.chain? rowId with
    | none => simp [publishedVersion, hc, hf]
    | some f =>
      -- the row was taken out under a delete, so what comes on top of it is live
      have hlive : version.isDeleted = false := by
        by_contra hd
        exact absurd (hp (by simpa using hd) f hf) (by simp [h.removed rowId f hc hf])
      rw [publishedVersion_of_live s rowId hlive, publishedVersion_of_live full rowId hlive]

theorem CutOf.addVersionInner (hfull : full.Ok) (h : CutOf full s)
    (hp : full.Publishable rowId version) :
    CutOf (full.addVersionInner rowId version) (s.addVersionInner rowId version) where
  isOpen := (addVersionInner_eq h.unlimited rowId version).2.2.2.2.trans h.isOpen
  unlimited := (addVersionInner_eq h.unlimited rowId version).2.2.1
  kept row := by
    rw [history_addVersionInner h.unlimited, history_addVersionInner hfull.unlimited]
    split
    · rw [h.publishedVersion_eq hp]
      exact (prefix_cons_inj _).mpr (h.kept rowId)
    · exact h.kept row
  removed row f hn hf := by
    rw [chain?_addVersionInner h.unlimited] at hn
    rw [chain?_addVersionInner hfull.unlimited] at hf
    split at hn
    · cases hn
    · rename_i hx
      rw [if_neg hx] at hf
      exact h.removed row f hn hf
  arena := arena_addVersionInner h.unlimited hfull.unlimited h.arena hp

/-- Two histories that mean the same to a viewer do so after a publication on both. -/
theorem CutOf.readVersions_addVersionInner (hfull : full.Ok) (h : CutOf full s)
    (hp : full.Publishable rowId version) {vis : Int → Bool}
    (hsame : ∀ row, readVersions vis (s.history row) = readVersions vis (full.history row))
    (row : Int) :
    readVersions vis ((s.addVersionInner rowId version).history row) =
      readVersions vis ((full.addVersionInner rowId version).history row) := by
  rw [history_addVersionInner h.unlimited, history_addVersionInner hfull.unlimited]
  split
  · simp only [readVersions, h.publishedVersion_eq hp, hsame rowId]
  · exact hsame row

theorem CutOf.addVersions {batch : Batch V} :
    ∀ {full s : VersionStore V}, full.Ok → CutOf full s → full.BatchPublishable batch →
      CutOf (full.addAll batch) (s.addAll batch) ∧
      ∀ vis : Int → Bool,
        (∀ row, readVersions vis (s.history row) = readVersions vis (full.history row)) →
        ∀ row, readVersions vis ((s.addAll batch).history row) =
          readVersions vis ((full.addAll batch).history row) := by
  induction batch with
  | nil => exact fun _ h _ => ⟨h, fun _ hsame => hsame⟩
  | cons p rest ih =>
    intro full s hfull h hp
    obtain ⟨hcut, hread⟩ :=
      ih (hfull.addVersionInner p.2.2 hp.1) (h.addVersionInner hfull hp.1) hp.2
    exact ⟨hcut, fun vis hsame =>
      hread vis (h.readVersions_addVersionInner hfull hp.1 hsame)⟩

/-- Claims are no part of a cut. -/
theorem CutOf.withClaims (h : CutOf full s) (claims claims' : Table Int Int) :
    CutOf { full with uncommittedWrites := claims } { s with uncommittedWrites := claims' } :=
  ⟨h.isOpen, h.unlimited, h.kept, h.removed, h.arena⟩

end

/-! ## Pruning -/

section

variable {s : VersionStore V} {checker : VisibilityChecker} {cutoff : Int}

/-- What lies behind the last version to keep, no active transaction sees. -/
theorem keepCount_spec {nodes : List (ChainNode V)} {n : ChainNode V}
    (hn : n ∈ nodes.drop (keepCount checker cutoff nodes)) {u : Int}
    (hu : u ∈ checker.getActiveTransactionIds) : checker.isVisible n.version.txnId u = false := by
  induction nodes with
  | nil => cases hn
  | cons m rest ih =>
    simp only [keepCount] at hn
    split at hn
    · exact ih hn
    · rename_i hbelow
      split at hn
      · -- only `m` stays
        rw [Nat.eq_zero_of_not_pos hbelow] at ih
        exact ih hn
      · rename_i hkeep
        simp only [Bool.or_eq_true, not_or, any_eq_true, not_exists, not_and] at hkeep
        rcases mem_cons.mp hn with rfl | hn
        · simpa using hkeep.1 u hu
        · rw [Nat.eq_zero_of_not_pos hbelow] at ih
          exact ih hn

theorem pruneChain_of_not_shorter
    (h : ¬ (pruneChain checker cutoff c).prev.length < c.prev.length) :
    pruneChain checker cutoff c = c := by
  have hlen : c.prev.length ≤ keepCount checker cutoff c.prev := by
    simpa [pruneChain] using h
  simp [pruneChain, take_of_length_le hlen]

variable (checker cutoff)

/-- One turn prunes one row and touches the tree only. -/
theorem pruneTurn_spec (acc : VersionStore V × Nat) (row : Int) :
    ∃ t, (pruneTurn checker cutoff acc row).1 = { acc.1 with versions := t } ∧
      ∀ x, t.lookup x = if x = row then (acc.1.chain? x).map (pruneChain checker cutoff)
        else acc.1.chain? x := by
  unfold pruneTurn
  cases hc : acc.1.versions.lookup row with
  | none =>
    refine ⟨acc.1.versions, rfl, fun x => ?_⟩
    split
    · subst x
      simp [chain?, hc]
    · rfl
  | some c =>
    simp only
    split
    · refine ⟨_, rfl, fun x => ?_⟩
      rw [Table.lookup_insert_if]
      split
      · subst x
        simp [chain?, hc]
      · rfl
    · rename_i hshort
      refine ⟨acc.1.versions, rfl, fun x => ?_⟩
      split
      · subst x
        simp [chain?, hc, pruneChain_of_not_shorter hshort]
      · rfl

/-- The second pass prunes the candidates, each of them once. -/
theorem foldl_pruneTurn_spec : ∀ (rows : List Int) (acc : VersionStore V × Nat), rows.Nodup →
    ∃ t, (rows.foldl (pruneTurn checker cutoff) acc).1 = { acc.1 with versions := t } ∧
      ∀ x, t.lookup x = if x ∈ rows then (acc.1.chain? x).map (pruneChain checker cutoff)
        else acc.1.chain? x
  | [], acc, _ => ⟨acc.1.versions, rfl, fun x => by simp [chain?]⟩
  | row :: rows, acc, hnd => by
    obtain ⟨hnot, hnd⟩ := nodup_cons.mp hnd
    obtain ⟨t, ht, hlook⟩ := pruneTurn_spec checker cutoff acc row
    obtain ⟨t', ht', hlook'⟩ := foldl_pruneTurn_spec rows (pruneTurn checker cutoff acc row) hnd
    refine ⟨t', by rw [foldl_cons, ht', ht], fun x => ?_⟩
    have hchain : (pruneTurn checker cutoff acc row).1.chain? x = t.lookup x := by
      rw [ht]
      rfl
    rw [hlook', hchain, hlook]
    by_cases hx : x = row
    · subst hx
      simp [hnot]
    · simp [hx]

/-- **What pruning does**: it cuts every chain to what must stay, and touches the tree only. -/
theorem cleanupOldPreviousVersions_spec (h : s.closed = false) (retention : Nat) (now : Int) :
    ∃ t, (s.cleanupOldPreviousVersionsWithRetention checker retention now).1 =
        { s with versions := t } ∧
      ∀ x, t.lookup x = (s.chain? x).map (pruneChain checker (retentionCutoff now retention)) := by
  unfold cleanupOldPreviousVersionsWithRetention
  rw [if_neg (by simp [h])]
  obtain ⟨t, ht, hlook⟩ := foldl_pruneTurn_spec checker (retentionCutoff now retention)
    (s.versions.sortedKeys.filter fun rowId =>
      (s.versions.lookup rowId).any fun c => !c.prev.isEmpty) (s, 0)
    ((Table.nodup_sortedKeys s.versions).filter _)
  refine ⟨t, ht, fun x => ?_⟩
  rw [hlook]
  split
  · rfl
  · -- no candidate: the row is not there or has no history
    rename_i hx
    cases hc : s.chain? x with
    | none => rfl
    | some c =>
      have hmem : x ∈ s.versions.sortedKeys := Table.mem_sortedKeys.mpr (Table.mem_of_lookup hc)
      have hnil : c.prev = [] := by
        by_contra hne
        refine hx (mem_filter.mpr ⟨hmem, ?_⟩)
        have hl : s.versions.lookup x = some c := hc
        simp [hl, hne]
      have hsame : pruneChain checker (retentionCutoff now retention) c = c :=
        pruneChain_of_not_shorter (by simp [pruneChain, hnil])
      simp [hsame]

end

/-! ## Vacuums keep a cut a cut -/

/-- **What the removal of deleted rows does**: every row it takes out was garbage. -/
theorem cleanupDeletedRows_spec {full : Int → Option (VersionChain V)}
    (hs : ArenaOk full s.slotOf s.arena) (h : s.closed = false) (checker : VisibilityChecker)
    (retention : Nat) (now : Int) :
    ∃ acc, (s.cleanupDeletedRows checker retention now).1 = s.finishRemoval acc ∧
      RemovalOk s acc ∧ ∀ row ∈ acc.removed, ∃ c, s.chain? row = some c ∧
        isGarbage checker (retentionCutoff now retention) c = true := by
  unfold cleanupDeletedRows
  rw [if_neg (by simp [h])]
  refine ⟨_, rfl, foldlRecOn (motive := fun acc : Removal V => RemovalOk s acc ∧
    ∀ row ∈ acc.removed, ∃ c, s.chain? row = some c ∧ isGarbage checker _ c = true) _ _
    ⟨RemovalOk.start s, by simp [removalOf]⟩ ?_⟩
  rintro acc ⟨hok, hgarb⟩ candidate -
  refine ⟨hok.vacuumTurn hs checker _ candidate, ?_⟩
  unfold vacuumTurn
  cases he : acc.versions.lookup candidate.1 with
  | none => exact hgarb
  | some entry =>
    simp only
    split
    · rename_i hcand
      exact forall_mem_append.mpr ⟨hgarb, forall_mem_singleton.mpr
        ⟨entry, (hok.chain_of_lookup he).2, hcand.2⟩⟩
    · exact hgarb

section

variable {full s : VersionStore V} (checker : VisibilityChecker) (retention : Nat) (now : Int)

theorem CutOf.history_cleanupDeletedRows (h : CutOf full s) (row : Int) :
    (s.cleanupDeletedRows checker retention now).1.history row <+: s.history row := by
  obtain ⟨acc, hs', hok, -⟩ := cleanupDeletedRows_spec h.arena h.isOpen checker retention now
  unfold history
  rw [hs', chain?_finishRemoval hok]
  split
  · exact nil_prefix
  · exact prefix_refl _

/-- What a history loses, no active transaction sees. -/
theorem CutOf.history_split (h : CutOf full s) (row : Int) : ∃ lost,
    s.history row =
        (s.cleanupOldPreviousVersionsWithRetention checker retention now).1.history row ++ lost ∧
      ∀ v ∈ lost, ∀ u ∈ checker.getActiveTransactionIds, checker.isVisible v.txnId u = false := by
  obtain ⟨t, hs', hlook⟩ := cleanupOldPreviousVersions_spec checker h.isOpen retention now
  rw [hs']
  have hchain : ({ s with versions := t } : VersionStore V).chain? row =
      (s.chain? row).map (pruneChain checker (retentionCutoff now retention)) := hlook row
  cases hc : s.chain? row with
  | none => exact ⟨[], by simp [history, hchain, hc], forall_mem_nil _⟩
  | some c =>
    let k := keepCount checker (retentionCutoff now retention) c.prev
    refine ⟨(c.prev.drop k).map (·.version), ?_, forall_mem_map.mpr fun n hn u hu =>
      keepCount_spec hn hu⟩
    rw [history_of_chain (hchain.trans (congrArg _ hc)), history_of_chain hc, cons_append,
      ← map_append]
    exact congrArg (fun l => c.head.version :: l.map (·.version))
      (take_append_drop k c.prev).symm

theorem CutOf.history_cleanupOldPreviousVersions (h : CutOf full s) (row : Int) :
    (s.cleanupOldPreviousVersionsWithRetention checker retention now).1.history row <+:
      s.history row := by
  obtain ⟨lost, hsplit, -⟩ := h.history_split checker retention now row
  exact ⟨lost, hsplit.symm⟩

theorem CutOf.cleanupDeletedRows (h : CutOf full s) :
    CutOf full (s.cleanupDeletedRows checker retention now).1 := by
  obtain ⟨acc, hs', hok, hgarb⟩ := cleanupDeletedRows_spec h.arena h.isOpen checker retention now
  have hkept := h.history_cleanupDeletedRows checker retention now
  rw [hs'] at hkept ⊢
  refine ⟨h.isOpen, h.unlimited, fun row => (hkept row).trans (h.kept row),
    fun row f hn hf => ?_, ?_⟩
  · rw [chain?_finishRemoval hok] at hn
    split at hn
    · rename_i hrow
      obtain ⟨c, hc, hgar⟩ := hgarb row hrow
      obtain ⟨f', hf', hhead⟩ := h.head hc
      rw [hf] at hf'
      cases hf'
      simp only [isGarbage, Bool.and_eq_true] at hgar
      rw [hhead]
      exact hgar.1.1
    · exact h.removed row f hn hf
  · exact h.arena.clear hok.nodup hok.slots (slotOf_finishRemoval hok)

theorem CutOf.cleanupOldPreviousVersions (h : CutOf full s) :
    CutOf full (s.cleanupOldPreviousVersionsWithRetention checker retention now).1 := by
  obtain ⟨t, hs', hlook⟩ := cleanupOldPreviousVersions_spec checker h.isOpen retention now
  have hkept := h.history_cleanupOldPreviousVersions checker retention now
  rw [hs'] at hkept ⊢
  have hchain : ∀ row, ({ s with versions := t } : VersionStore V).chain? row =
      (s.chain? row).map (pruneChain checker (retentionCutoff now retention)) := hlook
  refine ⟨h.isOpen, h.unlimited, fun row => (hkept row).trans (h.kept row),
    fun row f hn hf => ?_, ?_⟩
  · rw [hchain, Option.map_eq_none_iff] at hn
    exact h.removed row f hn hf
  · refine h.arena.congr (fun row => ?_) fun _ _ => rfl
    simp only [slotOf, hchain]
    cases s.chain? row <;> rfl

variable {checker} {u : Int} (hu : u ∈ checker.getActiveTransactionIds)
include hu

theorem CutOf.readVersions_cleanupDeletedRows (hfull : full.Ok) (h : CutOf full s) (row : Int) :
    readVersions (checker.isVisible · u)
        ((s.cleanupDeletedRows checker retention now).1.history row) =
      readVersions (checker.isVisible · u) (s.history row) := by
  obtain ⟨acc, hs', hok, hgarb⟩ := cleanupDeletedRows_spec h.arena h.isOpen checker retention now
  rw [hs']
  by_cases hrow : row ∈ acc.removed
  · have hgone : (s.finishRemoval acc).history row = [] :=
      history_of_none (by rw [chain?_finishRemoval hok, if_pos hrow])
    obtain ⟨c, hc, hgar⟩ := hgarb row hrow
    rw [hgone]
    refine (readVersions_eq_none fun v hv hvis => ?_).symm
    have hown : v.OwnMarker := hfull.own_history ((h.kept row).subset hv)
    -- what it sees of the chain is a delete
    have hdel : v.isDeleted = true := by
      have hall := hgar
      simp only [isGarbage, canSafelyRemove, Bool.and_eq_true, Bool.or_eq_true, List.isEmpty_iff,
        List.all_eq_true] at hall
      rcases hall.2 with hnil | hall
      · simp [hnil] at hu
      · simp only [history, hc, Option.map_some, Option.getD_some, VersionChain.versions,
          List.mem_map] at hv
        obtain ⟨n, hn, rfl⟩ := hv
        simpa [hvis] using hall u hu n hn
    simp [RowVersion.hiddenFrom, hdel, hown.marker_eq hdel, hvis]
  · have hsame : (s.finishRemoval acc).history row = s.history row := by
      simp [history, chain?_finishRemoval hok, hrow]
    rw [hsame]

theorem CutOf.readVersions_cleanupOldPreviousVersions (h : CutOf full s) (row : Int) :
    readVersions (checker.isVisible · u)
        ((s.cleanupOldPreviousVersionsWithRetention checker retention now).1.history row) =
      readVersions (checker.isVisible · u) (s.history row) := by
  obtain ⟨lost, hsplit, hlost⟩ := h.history_split checker retention now row
  rw [hsplit]
  refine readVersions_append_eq (Or.inr (readVersions_eq_none fun v hv hvis => ?_))
  exact absurd hvis (by simp [hlost v hv u hu])

end

end VersionStore

end RadixDb

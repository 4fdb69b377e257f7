import RadixDb.Db.UniqueClaims

/-!
# What a statement does to keys

A statement works out its changes in two passes over its rows: all rows give up the keys of their
newest versions, then the rows take the keys of their proposed data. `Progress` says what the
changes mean while the passes go on, in terms of the pairs of row and key that have been given up
and taken so far. **The only conflicts that the passes meet are duplicates of the statement's own
final view** (`keyChanges_ok`). A reservation records the changes if none of the keys that it takes
is another transaction's (`reserve_spec`).
-/

namespace RadixDb

open List

variable {V : Type}

/-! ## The two passes of a statement -/

section

variable [DecidableEq V] {schema : UniqueSchema V}

/-- Data whose keys include `k`. -/
def Carries (schema : UniqueSchema V) (data : List V) (k : UniqueClaimKey V) : Prop :=
  ∃ ks, schema.uniqueKeysForRow data = .ok ks ∧ k ∈ ks

/-- A row whose newest version is live and carries `k`. -/
def LocalKey (schema : UniqueSchema V) (tx : TransactionVersionStore V) (row : Int)
    (k : UniqueClaimKey V) : Prop :=
  ∃ v, tx.getLocalVersion row = some v ∧ v.1.isDeleted = false ∧ Carries schema v.1.data k

/-- A row to which the statement gives `k`. -/
def ProposedKey (schema : UniqueSchema V) (rows : List (ProposedRow V)) (row : Int)
    (k : UniqueClaimKey V) : Prop :=
  ∃ data, (row, some data) ∈ rows ∧ Carries schema data k

/-- **What the changes mean** when the pairs in `G` have been given up and those in `T` taken: a key
that was touched has the row that took it, or the row that had it and has not given it up. -/
structure Progress (current : Table (UniqueClaimKey V) Int) (G T : Int → UniqueClaimKey V → Prop)
    (changed : KeyChanges V) : Prop where
  given : ∀ row k, G row k → k ∈ changed
  taken : ∀ row k, T row k → changed.lookup k = some (some row)
  owner : ∀ k c, changed.lookup k = some (some c) →
    T c k ∨ (current.lookup k = some c ∧ ¬ G c k)

variable {current : Table (UniqueClaimKey V) Int} {G G' T T' : Int → UniqueClaimKey V → Prop}
  {changed changed' : KeyChanges V} {row : Int} {k : UniqueClaimKey V}

theorem Progress.congr (h : Progress current G T changed) (hG : ∀ r k, G' r k ↔ G r k)
    (hT : ∀ r k, T' r k ↔ T r k) : Progress current G' T' changed where
  given r k hr := h.given r k ((hG r k).mp hr)
  taken r k hr := h.taken r k ((hT r k).mp hr)
  owner k c hk := (h.owner k c hk).imp (hT c k).mpr
    fun ⟨hc, hn⟩ => ⟨hc, fun hg => hn ((hG c k).mp hg)⟩

theorem Progress.empty : Progress current (fun _ _ => False) (fun _ _ => False) ∅ where
  given _ _ h := h.elim
  taken _ _ h := h.elim
  owner k c h := absurd h (by simp)

/-- The owner so far: the row that took the key, or the one that had it and has not given it up. -/
theorem Progress.keyOwner (h : Progress current G T changed) {c : Int}
    (hc : keyOwner current changed k = some c) : T c k ∨ (current.lookup k = some c ∧ ¬ G c k) := by
  unfold RadixDb.keyOwner at hc
  cases hk : changed.lookup k with
  | some o =>
    rw [hk, Option.getD_some] at hc
    exact h.owner k c (hk.trans (congrArg some hc))
  | none =>
    rw [hk, Option.getD_none] at hc
    exact .inr ⟨hc, fun hg => Table.not_mem_of_lookup hk (h.given c k hg)⟩

theorem Progress.removeKey (h : Progress current G (fun _ _ => False) changed) (row : Int)
    (key : UniqueClaimKey V) :
    Progress current (fun r k => G r k ∨ (r = row ∧ k = key)) (fun _ _ => False)
      (removeKey current row changed key) where
  given r k hr := by
    refine (AList.mem_insert _).mpr ?_
    rcases hr with hg | ⟨-, rfl⟩
    exacts [.inr (h.given r k hg), .inl rfl]
  taken _ _ hf := hf.elim
  owner k c hk := by
    simp only [RadixDb.removeKey, Table.lookup_insert_if] at hk
    split at hk
    next heq =>
      subst heq
      have howner := Option.some.inj hk
      split at howner
      · cases howner
      next hne =>
        refine (h.keyOwner howner).imp_right fun ⟨hc, hn⟩ => ⟨hc, ?_⟩
        rintro (hg | ⟨rfl, -⟩)
        exacts [hn hg, hne howner]
    next hne =>
      refine (h.owner k c hk).imp_right fun ⟨hc, hn⟩ => ⟨hc, ?_⟩
      rintro (hg | ⟨-, heq⟩)
      exacts [hn hg, hne heq]

theorem Progress.removeKeys (h : Progress current G (fun _ _ => False) changed) (row : Int)
    (keys : List (UniqueClaimKey V)) :
    Progress current (fun r k => G r k ∨ (r = row ∧ k ∈ keys)) (fun _ _ => False)
      (keys.foldl (RadixDb.removeKey current row) changed) := by
  induction keys generalizing G changed with
  | nil => exact h.congr (by simp) (by simp)
  | cons key keys ih =>
    refine (ih (h.removeKey row key)).congr (fun r k => ?_) (by simp)
    simp only [mem_cons]
    tauto

variable {tx : TransactionVersionStore V} {data : Option (List V)} {rows : List (ProposedRow V)}

/-- One row of the first pass gives up the keys it has. -/
theorem removals_cons
    (h : removals schema tx current ((row, data) :: rows) changed = .ok changed') :
    ∃ keys : List (UniqueClaimKey V), (∀ k, LocalKey schema tx row k ↔ k ∈ keys) ∧
      removals schema tx current rows (keys.foldl (removeKey current row) changed) =
        .ok changed' := by
  unfold removals at h
  split at h
  next hnone => exact ⟨[], by simp [LocalKey, hnone], h⟩
  next v hv =>
    split at h
    next hdel => exact ⟨[], by simp [LocalKey, hv, hdel], h⟩
    next hlive =>
      split at h
      · cases h
      next keys hkeys => exact ⟨keys, by simp [LocalKey, Carries, hv, hlive, hkeys], h⟩

theorem Progress.removals (h : Progress current G (fun _ _ => False) changed)
    (hok : removals schema tx current rows changed = .ok changed') :
    Progress current (fun r k => G r k ∨ (r ∈ rows.map (·.1) ∧ LocalKey schema tx r k))
      (fun _ _ => False) changed' := by
  induction rows generalizing G changed with
  | nil =>
    cases hok
    exact h.congr (by simp) (by simp)
  | cons p rows ih =>
    obtain ⟨keys, hkeys, hrest⟩ := removals_cons hok
    refine (ih (h.removeKeys p.1 keys) hrest).congr (fun r k => ?_) (by simp)
    have hk : r = p.1 ∧ k ∈ keys ↔ r = p.1 ∧ LocalKey schema tx r k :=
      and_congr_right fun hr => hr ▸ (hkeys k).symm
    rw [hk, map_cons, mem_cons]
    tauto

variable {key : UniqueClaimKey V}

/-- A row takes a key that is nobody's or its own. -/
theorem Progress.addKey (h : Progress current G T changed)
    (hfree : ∀ c, RadixDb.keyOwner current changed key = some c → c = row) :
    Progress current G (fun r k => T r k ∨ (r = row ∧ k = key))
      (changed.insert key (some row)) where
  given r k hg := (AList.mem_insert _).mpr (.inr (h.given r k hg))
  taken := by
    rintro r k (ht | ⟨rfl, rfl⟩)
    · rw [Table.lookup_insert_if]
      split
      next heq =>
        -- whoever took the key before is the row itself
        subst heq
        rw [hfree r (by simp [RadixDb.keyOwner, h.taken r k ht])]
      next => exact h.taken r k ht
    · simp
  owner k c hk := by
    rw [Table.lookup_insert_if] at hk
    split at hk
    next heq =>
      cases hk
      exact .inl (.inr ⟨rfl, heq⟩)
    next => exact (h.owner k c hk).imp_left .inl

variable {keys : List (UniqueClaimKey V)}

theorem addKeys_cons_iff :
    addKeys schema current row (key :: keys) changed = .ok changed' ↔
      (∀ c, keyOwner current changed key = some c → c = row) ∧
        addKeys schema current row keys (changed.insert key (some row)) = .ok changed' := by
  rw [addKeys]
  cases keyOwner current changed key with
  | none => simp
  | some c => by_cases hc : c = row <;> simp [hc]

theorem Progress.addKeys (h : Progress current G T changed)
    (hok : addKeys schema current row keys changed = .ok changed') :
    Progress current G (fun r k => T r k ∨ (r = row ∧ k ∈ keys)) changed' := by
  induction keys generalizing T changed with
  | nil =>
    cases hok
    exact h.congr (by simp) (by simp)
  | cons key keys ih =>
    obtain ⟨hfree, hrest⟩ := addKeys_cons_iff.mp hok
    refine (ih (h.addKey hfree) hrest).congr (by simp) fun r k => ?_
    simp only [mem_cons]
    tauto

theorem addKeys_ok (h : Progress current G T changed)
    (hfree : ∀ k ∈ keys, ∀ c, T c k ∨ (current.lookup k = some c ∧ ¬ G c k) → c = row) :
    ∃ changed', addKeys schema current row keys changed = .ok changed' := by
  induction keys generalizing T changed with
  | nil => exact ⟨changed, rfl⟩
  | cons key keys ih =>
    obtain ⟨hkey, hrest⟩ := forall_mem_cons.mp hfree
    have hown := fun c hc => hkey c (h.keyOwner hc)
    obtain ⟨changed', hchg⟩ := ih (h.addKey hown) fun k hk c hc => by
      rcases hc with (ht | ⟨rfl, -⟩) | hcur
      · exact hrest k hk c (.inl ht)
      · rfl
      · exact hrest k hk c (.inr hcur)
    exact ⟨changed', addKeys_cons_iff.mpr ⟨hown, hchg⟩⟩

theorem additions_some_iff {data : List V} :
    additions schema current ((row, some data) :: rows) changed = .ok changed' ↔
      ∃ keys next, schema.uniqueKeysForRow data = .ok keys ∧
        addKeys schema current row keys changed = .ok next ∧
        additions schema current rows next = .ok changed' := by
  rw [additions]
  cases schema.uniqueKeysForRow data with
  | error e => simp
  | ok keys => cases hadd : RadixDb.addKeys schema current row keys changed <;> simp [hadd]

omit [DecidableEq V] in
theorem proposedKey_cons {r : Int} {p : ProposedRow V} :
    ProposedKey schema (p :: rows) r k ↔
      (r = p.1 ∧ ∃ data, p.2 = some data ∧ Carries schema data k) ∨
        ProposedKey schema rows r k := by
  obtain ⟨row, data⟩ := p
  simp [ProposedKey, or_and_right, exists_or, and_assoc, exists_and_left, eq_comm (b := data)]

theorem Progress.additions (h : Progress current G T changed)
    (hok : additions schema current rows changed = .ok changed') :
    Progress current G (fun r k => T r k ∨ ProposedKey schema rows r k) changed' := by
  induction rows generalizing T changed with
  | nil =>
    cases hok
    exact h.congr (by simp) (by simp [ProposedKey])
  | cons p rows ih =>
    obtain ⟨row, data⟩ := p
    cases data with
    | none => exact (ih h hok).congr (by simp) (by simp [proposedKey_cons])
    | some data =>
      obtain ⟨keys, next, hkeys, hadd, hrest⟩ := additions_some_iff.mp hok
      refine (ih (h.addKeys hadd) hrest).congr (by simp) fun r k => ?_
      simp [proposedKey_cons, Carries, hkeys, or_assoc]

/-- **What a statement changes**: its rows give up the keys of their newest versions and take those
of their proposed data. -/
theorem Progress.keyChanges (h : keyChanges schema tx current rows = .ok changed) :
    Progress current (fun r k => r ∈ rows.map (·.1) ∧ LocalKey schema tx r k)
      (ProposedKey schema rows) changed := by
  unfold RadixDb.keyChanges at h
  split at h
  · cases h
  next next hrem =>
    have hprog := (Progress.empty.removals hrem).additions h
    exact hprog.congr (by simp) (by simp)

theorem keys_of_additions (hok : additions schema current rows changed = .ok changed')
    (row : Int) (data : List V) (hmem : (row, some data) ∈ rows) :
    ∃ ks, schema.uniqueKeysForRow data = .ok ks := by
  induction rows generalizing changed with
  | nil => cases hmem
  | cons p rows ih =>
    obtain ⟨x, d⟩ := p
    cases d with
    | none => exact ih hok (by simpa using hmem)
    | some d =>
      obtain ⟨keys, next, hkeys, -, hrest⟩ := additions_some_iff.mp hok
      rcases mem_cons.mp hmem with heq | hmem
      · cases heq
        exact ⟨keys, hkeys⟩
      · exact ih hrest hmem

/-! ### When a statement has no conflict -/

/-- The statement's final view: its own rows as proposed, the other rows as they are. -/
def FinalKey (schema : UniqueSchema V) (tx : TransactionVersionStore V)
    (rows : List (ProposedRow V)) (row : Int) (k : UniqueClaimKey V) : Prop :=
  ProposedKey schema rows row k ∨ (row ∉ rows.map (·.1) ∧ LocalKey schema tx row k)

theorem removals_ok : ∀ (rows : List (ProposedRow V))
    (changed : KeyChanges V), (∀ row ∈ rows.map (·.1), ∀ v, tx.getLocalVersion row = some v →
      v.1.isDeleted = false → ∃ ks, schema.uniqueKeysForRow v.1.data = .ok ks) →
    ∃ changed', removals schema tx current rows changed = .ok changed'
  | [], changed, _ => ⟨changed, rfl⟩
  | (row, _) :: rest, changed, hkeys => by
    have hrest : ∀ x ∈ rest.map (·.1), ∀ v, tx.getLocalVersion x = some v →
        v.1.isDeleted = false → ∃ ks, schema.uniqueKeysForRow v.1.data = .ok ks :=
      fun x hx => hkeys x (mem_cons_of_mem _ hx)
    unfold RadixDb.removals
    split
    · exact removals_ok rest _ hrest
    next v hv =>
      split
      · exact removals_ok rest _ hrest
      next hlive =>
        obtain ⟨ks, hks⟩ := hkeys row mem_cons_self v hv (by simpa using hlive)
        rw [hks]
        exact removals_ok rest _ hrest

theorem additions_ok (h : Progress current G T changed)
    (hkeys : ∀ row data, (row, some data) ∈ rows → ∃ ks, schema.uniqueKeysForRow data = .ok ks)
    (hfree : ∀ row k, ProposedKey schema rows row k → ∀ c,
      (T c k ∨ ProposedKey schema rows c k) ∨ (current.lookup k = some c ∧ ¬ G c k) → c = row) :
    ∃ changed', additions schema current rows changed = .ok changed' := by
  induction rows generalizing T changed with
  | nil => exact ⟨changed, rfl⟩
  | cons p rows ih =>
    obtain ⟨row, data⟩ := p
    have hrest := fun x d hx => hkeys x d (mem_cons_of_mem _ hx)
    simp only [proposedKey_cons] at hfree
    cases data with
    | none =>
      refine ih h hrest fun x k hx c hc => hfree x k (.inr hx) c ?_
      exact hc.imp_left (Or.imp_right .inr)
    | some data =>
      obtain ⟨ks, hks⟩ := hkeys row data mem_cons_self
      have hrow : ∀ k ∈ ks, ∃ d, some data = some d ∧ Carries schema d k := fun k hk =>
        ⟨data, rfl, ks, hks, hk⟩
      obtain ⟨next, hnext⟩ : ∃ next, RadixDb.addKeys schema current row ks changed = .ok next :=
        addKeys_ok h fun k hk c hc => hfree row k (.inl ⟨rfl, hrow k hk⟩) c (hc.imp_left .inl)
      obtain ⟨changed', hchg⟩ := ih (h.addKeys hnext) hrest fun x k hx c hc => by
        refine hfree x k (.inr hx) c ?_
        rcases hc with ((ht | ⟨rfl, hk⟩) | hp) | hcur
        · exact .inl (.inl ht)
        · exact .inl (.inr (.inl ⟨rfl, hrow k hk⟩))
        · exact .inl (.inr (.inr hp))
        · exact .inr hcur
      exact ⟨changed', additions_some_iff.mpr ⟨ks, next, hks, hnext, hchg⟩⟩

/-- **A statement whose final view has no duplicate has no conflict of its own**: whoever has a key
that a row takes either gives it up in the same statement or has it in the final view. -/
theorem keyChanges_ok (hcarried : ∀ k c, current.lookup k = some c → LocalKey schema tx c k)
    (hlocal : ∀ row v, tx.getLocalVersion row = some v → v.1.isDeleted = false →
      ∃ ks, schema.uniqueKeysForRow v.1.data = .ok ks)
    (hkeys : ∀ row data, (row, some data) ∈ rows → ∃ ks, schema.uniqueKeysForRow data = .ok ks)
    (hdup : ∀ r r' k, FinalKey schema tx rows r k → FinalKey schema tx rows r' k → r = r') :
    ∃ changed, keyChanges schema tx current rows = .ok changed := by
  obtain ⟨next, hnext⟩ : ∃ next, RadixDb.removals schema tx current rows ∅ = .ok next :=
    removals_ok rows ∅ fun row _ => hlocal row
  obtain ⟨changed, hchg⟩ := additions_ok
    (Progress.empty.removals hnext) hkeys fun row k hrow c hc => by
      refine hdup c row k ?_ (.inl hrow)
      rcases hc with (hfalse | hp) | ⟨hcur, hnot⟩
      · exact hfalse.elim
      · exact .inl hp
      · have hk := hcarried k c hcur
        exact .inr ⟨fun hmem => hnot (.inr ⟨hmem, hk⟩), hk⟩
  exact ⟨changed, by simp only [RadixDb.keyChanges, hnext, hchg]⟩

end

/-! ## Reservations -/

section

variable [DecidableEq V] {schema : UniqueSchema V} {shared : SharedUniqueClaimMap V}
  {keys : UniqueKeys V} {tx : TransactionVersionStore V} {t claimedAt : Int}
  {rows : List (ProposedRow V)} {attempt : Attempt V} {k : UniqueClaimKey V}
  (changed : KeyChanges V)

theorem lookup_shared_claimChanges :
    (claimChanges shared keys t claimedAt changed).1.lookup k =
      match changed.lookup k with
      | some (some row) => some ⟨t, row⟩
      | _ => shared.lookup k := by
  simp only [claimChanges, Table.lookup_merge]
  rcases changed.lookup k with _ | _ | row <;> rfl

theorem lookup_current_claimChanges :
    (claimChanges shared keys t claimedAt changed).2.current.lookup k =
      match changed.lookup k with
      | some owner => owner
      | none => keys.current.lookup k := by
  simp only [claimChanges, Table.lookup_merge]
  rcases changed.lookup k with _ | owner <;> rfl

theorem lookup_retained_claimChanges :
    (claimChanges shared keys t claimedAt changed).2.retained.lookup k =
      match changed.lookup k with
      | some (some _) => some ((keys.retained.lookup k).getD claimedAt)
      | _ => keys.retained.lookup k := by
  simp only [claimChanges, Table.lookup_merge]
  rcases changed.lookup k with _ | _ | row <;> rfl

variable {changed : KeyChanges V}

theorem foreignOwner_eq_none (h : foreignOwner shared t changed = none) {row : Int}
    (hk : changed.lookup k = some (some row)) {owner : UniqueClaimOwner}
    (ho : shared.lookup k = some owner) : owner.txnId = t := by
  have hentry := findSome?_eq_none_iff.mp h ⟨k, some row⟩ (Table.mem_entries_iff.mpr hk)
  by_contra hne
  simp [ho, hne] at hentry

theorem foreignOwner_eq_none_of (h : ∀ k row, changed.lookup k = some (some row) → ∀ owner,
      shared.lookup k = some owner → owner.txnId = t) : foreignOwner shared t changed = none := by
  refine findSome?_eq_none_iff.mpr fun e he => ?_
  obtain ⟨key, owner⟩ := e
  cases owner with
  | none => rfl
  | some row =>
    cases ho : shared.lookup key with
    | none => simp
    | some o => simp [h key row (Table.mem_entries_iff.mp he) o ho]

omit [DecidableEq V] in
theorem not_carries_of_isEmpty (h : schema.indexes.isEmpty = true) (data : List V)
    (k : UniqueClaimKey V) : ¬ Carries schema data k := by
  rintro ⟨ks, hks, hk⟩
  rw [UniqueSchema.uniqueKeysForRow, isEmpty_iff.mp h] at hks
  cases hks
  cases hk

/-- **What a reservation does**: it records the changes of the statement, and none of the keys it
takes is another transaction's. -/
theorem reserve_spec {claims : SharedUniqueClaimMap V × UniqueKeys V}
    (h : reserveUniqueKeysForRows schema shared keys tx t rows attempt claimedAt = .ok claims) :
    ∃ changed, claims = claimChanges shared keys t claimedAt changed ∧
      Progress keys.current (fun r k => r ∈ rows.map (·.1) ∧ LocalKey schema tx r k)
        (ProposedKey schema rows) changed ∧
      (∀ k row, changed.lookup k = some (some row) → ∀ owner, shared.lookup k = some owner →
        owner.txnId = t) ∧
      ∀ row data, (row, some data) ∈ rows → ∃ ks, schema.uniqueKeysForRow data = .ok ks := by
  unfold reserveUniqueKeysForRows at h
  split at h
  next hempty =>
    cases h
    rw [isEmpty_iff.mp hempty]
    exact ⟨∅, rfl, Progress.empty.congr (by simp) (by simp [ProposedKey]), by simp, by simp⟩
  split at h
  next hempty =>
    cases h
    have hnone := not_carries_of_isEmpty hempty
    refine ⟨∅, rfl, Progress.empty.congr (fun r k => ?_) (fun r k => ?_), by simp,
      fun row data _ => ?_⟩
    · simp [LocalKey, hnone]
    · simp [ProposedKey, hnone]
    · rw [UniqueSchema.uniqueKeysForRow, isEmpty_iff.mp hempty]
      exact ⟨[], rfl⟩
  split at h
  · cases h
  next changed hchg =>
    split at h
    · split at h <;> cases h
    next hforeign =>
      split at h
      · cases h
      · cases h
        refine ⟨changed, rfl, Progress.keyChanges hchg,
          fun k row hk owner ho => foreignOwner_eq_none hforeign hk ho, ?_⟩
        unfold keyChanges at hchg
        split at hchg
        · cases hchg
        · exact keys_of_additions hchg

end

end RadixDb

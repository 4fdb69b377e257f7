import RadixDb.Store.Cut

/-!
# Who created what a store holds

A commit publishes versions of one creator. Afterwards the store's creators are those it had and
this one (`Creators.addVersions`), which has the newest version of every row of the batch
(`headTxn_addVersions`), and the other rows are as they were. Conflict checks and seals compare
creators of newest versions and look at nothing else.
-/

namespace RadixDb

open List

variable {V : Type}

theorem mem_of_readVersions {vis : Int → Bool} {v : RowVersion V} :
    ∀ {vs : List (RowVersion V)}, readVersions vis vs = some v → v ∈ vs
  | w :: rest, h => by
    rw [readVersions] at h
    split_ifs at h
    · exact Option.some.inj h ▸ mem_cons_self
    · exact mem_cons_of_mem _ (mem_of_readVersions h)

namespace VersionStore

/-- Every version of the store is by a transaction that `P` accepts. -/
def Creators (P : Int → Prop) (s : VersionStore V) : Prop :=
  ∀ row, ∀ v ∈ s.history row, P v.txnId

/-- The creator of each row's newest version. -/
def headTxn (s : VersionStore V) (row : Int) : Option Int :=
  (s.chain? row).map (·.head.version.txnId)

variable {P : Int → Prop} {s : VersionStore V} {row : Int}

/-- Whoever a point read names is one of the creators. -/
theorem Creators.of_getVisibleVersion (h : s.Creators P) (hok : s.Ok) {vis : Int → Bool}
    {v : RowVersion V} (hv : s.getVisibleVersion vis row = some v) : P v.txnId := by
  have hread := @Ok.getVisibleVersion_eq _ s vis hok row
  rw [hv, readsCreator_eq] at hread
  obtain ⟨w, hw, heq⟩ := Option.map_eq_some_iff.mp hread.symm
  have htxn : w.txnId = v.txnId := congrArg Prod.fst heq
  exact htxn ▸ h row w (mem_of_readVersions hw)

theorem Creators.addVersions (h : s.Creators P) (hs : s.maxVersionHistory = 0) {batch : Batch V}
    (hall : ∀ p ∈ batch, P p.2.1.txnId) : (s.addAll batch).Creators P := by
  refine (foldlRecOn (motive := fun s : VersionStore V =>
    s.Creators P ∧ s.maxVersionHistory = 0) batch _ ⟨h, hs⟩ ?_).1
  rintro s ⟨h, hs⟩ p hp
  refine ⟨fun row v hv => ?_, (addVersionInner_eq hs _ _).2.2.1⟩
  rw [history_addVersionInner hs] at hv
  split_ifs at hv
  · rcases mem_cons.mp hv with rfl | hv
    · exact (publishedVersion_txnId s _ _).symm ▸ hall p hp
    · exact h _ v hv
  · exact h row v hv

/-- A commit by `t` makes `t` the newest creator of the rows it publishes. -/
theorem headTxn_addVersions {t : Int} : ∀ {batch : Batch V} {s : VersionStore V},
    s.maxVersionHistory = 0 → (∀ p ∈ batch, p.2.1.txnId = t) → ∀ x,
      (s.addAll batch).headTxn x = if x ∈ batch.map (·.1) then some t else s.headTxn x
  | [], _, _, _, _ => by simp [addAll]
  | p :: rest, s, hs, hall, x => by
    have hhead : (s.addVersionInner p.1 p.2.1).headTxn x =
        if x = p.1 then some t else s.headTxn x := by
      rw [headTxn, chain?_addVersionInner hs]
      split_ifs
      · exact congrArg some ((publishedVersion_txnId s _ _).trans (hall p mem_cons_self))
      · rfl
    rw [addAll, foldl_cons, ← addAll, headTxn_addVersions (addVersionInner_eq hs _ _).2.2.1
      (fun q hq => hall q (mem_cons_of_mem _ hq)), hhead]
    by_cases hx : x ∈ rest.map (·.1)
    · simp [hx]
    · by_cases hp : x = p.1 <;> simp [hx, hp]

/-- A row that is not in the batch stays as it is. -/
theorem chain?_addVersions (hs : s.maxVersionHistory = 0) {batch : Batch V}
    (hrow : row ∉ batch.map (·.1)) : (s.addAll batch).chain? row = s.chain? row := by
  refine (foldlRecOn (motive := fun st : VersionStore V =>
    st.chain? row = s.chain? row ∧ st.maxVersionHistory = 0) batch _ ⟨rfl, hs⟩ ?_).1
  rintro st ⟨hst, hmax⟩ p hp
  refine ⟨?_, (addVersionInner_eq hmax _ _).2.2.1⟩
  have hne : row ≠ p.1 := (ne_of_mem_of_not_mem (mem_map_of_mem hp) hrow).symm
  rw [chain?_addVersionInner hmax, if_neg hne, hst]

end VersionStore

end RadixDb

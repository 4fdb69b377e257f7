import RadixDb.Index.BTree
import RadixDb.Value.Column

/-!
# What holds of a B-tree index after any commands

`Ok` relates the two maps of an index to each other and to the rows the index is for: the tree is
sorted, its entries hold ascending non-empty lists of rows, a row is in the list of a value exactly
if the value is what the row maps back to, and that value is equal to the one the row was last added
with. **Every command keeps it** (`ok_step`), so it holds throughout every run (`ok_after`).

The argument for a replaced value goes through the state between `detach` and `attach`, where the
row is in neither map. `Linked` is the part of the invariant that holds there too.
-/

namespace RadixDb.BTreeIndex

open List Function Except Option Value

/-- The tree and a map from rows to values, which may be that of the index or one on the way. -/
structure Linked (std : LowerExp) (column : Set Value) (tree : List (Value × List ℤ))
    (back : ℤ → Option Value) : Prop where
  sorted : OrderedMap.Sorted (ordCmp std) tree
  column : ∀ e ∈ tree, e.1 ∈ column
  rows : ∀ e ∈ tree, e.2 ≠ [] ∧ e.2.Pairwise (· < ·)
  link : ∀ rowId value, back rowId = some value ↔ ∃ rows, (value, rows) ∈ tree ∧ rowId ∈ rows

/-- An index of a column is in order, and is for the rows `t`. -/
structure Ok (std : LowerExp) (column : Set Value) (s : BTreeIndex) (t : Rows) : Prop where
  isOpen : s.closed = false
  linked : Linked std column s.sortedValues s.rowToValue.lookup
  holds : ∀ rowId, Rel (fun v w => v ∈ column ∧ v.ordCmp std w = .eq) (t rowId)
    (s.rowToValue.lookup rowId)

/-! ## Lists of rows -/

variable {rows : List ℤ}

theorem mem_insertRow {r x : ℤ} : x ∈ insertRow r rows ↔ x = r ∨ x ∈ rows := by
  unfold insertRow
  split_ifs with h
  · exact ⟨Or.inr, fun hx => hx.elim (fun hxr => hxr ▸ h) id⟩
  · rw [mem_orderedInsert]

theorem insertRow_ne_nil (r : ℤ) (rows : List ℤ) : insertRow r rows ≠ [] :=
  ne_nil_of_mem (mem_insertRow.mpr (Or.inl rfl))

theorem pairwise_insertRow {r : ℤ} (h : rows.Pairwise (· < ·)) :
    (insertRow r rows).Pairwise (· < ·) := by
  unfold insertRow
  split_ifs with hr
  · exact h
  · -- an ascending list stays ascending, and `r` is not in it twice
    have hle : (rows.orderedInsert (· ≤ ·) r).Pairwise (· ≤ ·) :=
      List.Pairwise.orderedInsert r rows (h.imp le_of_lt)
    have hnodup : (rows.orderedInsert (· ≤ ·) r).Nodup :=
      (perm_orderedInsert _ r rows).nodup_iff.mpr
        (nodup_cons.mpr ⟨hr, h.imp ne_of_lt⟩)
    exact (hle.and hnodup).imp fun hab => lt_of_le_of_ne hab.1 hab.2

/-! ## One row -/

section

variable {std : LowerExp} {K : Type} [LinearOrder K] {place : Value → K} {column : Set Value}
  {tree : List (Value × List ℤ)} {back : ℤ → Option Value} {s : BTreeIndex} {r : ℤ}

variable {v : Value}

theorem ordCmp_self (hc : Follows (ordCmp std) place column) (hv : v ∈ column) :
    v.ordCmp std v = .eq :=
  (hc v hv v hv).eq_eq.mpr rfl

/-- The entry of a value holds the rows that map back to it. -/
theorem Linked.mem_rows {w : Value} {rows : List ℤ} (h : Linked std column tree back)
    (hc : Follows (ordCmp std) place column) (hmem : (w, rows) ∈ tree) (x : ℤ) :
    back x = some w ↔ x ∈ rows := by
  refine (h.link x w).trans ⟨fun ⟨rows', hmem', hx⟩ => ?_, fun hx => ⟨rows, hmem, hx⟩⟩
  cases h.sorted.eq_of_cmp_eq hc h.column hmem hmem' (ordCmp_self hc (h.column _ hmem))
  exact hx

/-- **One value is given other rows.** -/
theorem Linked.replace {u : Value} {rows : List ℤ} {tree' : List (Value × List ℤ)}
    {back' : ℤ → Option Value} (h : Linked std column tree back)
    (hsorted : OrderedMap.Sorted (ordCmp std) tree') (hu : u ∈ column)
    (hrows : rows.Pairwise (· < ·))
    (hmem : ∀ e, e ∈ tree' ↔ e ∈ tree ∧ e.1 ≠ u ∨ rows ≠ [] ∧ e = (u, rows))
    (hback : ∀ x v, back' x = some v ↔ back x = some v ∧ v ≠ u ∨ x ∈ rows ∧ v = u) :
    Linked std column tree' back' := by
  refine ⟨hsorted, fun e he => ?_, fun e he => ?_, fun x v => ?_⟩
  · obtain ⟨he, -⟩ | ⟨-, rfl⟩ := (hmem e).mp he
    · exact h.column e he
    · exact hu
  · obtain ⟨he, -⟩ | ⟨hne, rfl⟩ := (hmem e).mp he
    · exact h.rows e he
    · exact ⟨hne, hrows⟩
  · rw [hback, h.link]
    constructor
    · rintro (⟨⟨old, hold, hx⟩, hv⟩ | ⟨hx, rfl⟩)
      · exact ⟨old, (hmem _).mpr (.inl ⟨hold, hv⟩), hx⟩
      · exact ⟨rows, (hmem _).mpr (.inr ⟨ne_nil_of_mem hx, rfl⟩), hx⟩
    · rintro ⟨old, hold, hx⟩
      obtain ⟨hold, hv⟩ | ⟨-, heq⟩ := (hmem _).mp hold
      · exact .inl ⟨⟨old, hold, hx⟩, hv⟩
      · cases heq
        exact .inr ⟨hx, rfl⟩

section

variable (h : Linked std column s.sortedValues back) (hc : Follows (ordCmp std) place column)

include h hc

theorem Linked.detach {w : Value} (hw : back r = some w) :
    Linked std column (s.detach std w r).sortedValues (update back r none) := by
  obtain ⟨rows, hmem, hr⟩ := (h.link r w).mp hw
  have hwc : w ∈ column := h.column _ hmem
  have hself := ordCmp_self hc hwc
  have hsame : ∀ e ∈ s.sortedValues, w.ordCmp std e.1 = .eq ↔ e.1 = w := fun e he =>
    ⟨fun heq => by rw [← h.sorted.eq_of_cmp_eq hc h.column hmem he heq],
      fun heq => heq.symm ▸ hself⟩
  have hpairwise := (h.rows _ hmem).2
  refine h.replace (OrderedMap.sorted_alter h.sorted hc hwc h.column) hwc
    (hpairwise.sublist erase_sublist : (rows.erase r).Pairwise _) (fun e => ?_) fun x v => ?_
  · rw [BTreeIndex.detach, OrderedMap.mem_alter h.sorted hc hwc h.column,
      (OrderedMap.getKeyValue_eq_some h.sorted hc hwc h.column).mpr ⟨hmem, hself⟩]
    refine or_congr (and_congr_right fun he => not_congr (hsame e he)) ?_
    by_cases hnil : rows.erase r = [] <;> simp [-erase_eq_nil_iff, hnil, eq_comm]
  · rw [List.Nodup.mem_erase_iff (hpairwise.imp ne_of_lt)]
    by_cases hx : x = r
    · subst hx
      simp [hw, eq_comm]
    · rw [update_of_ne hx]
      by_cases hv : v = w
      · subst hv
        simp [hx, h.mem_rows hc hmem]
      · simp [hv]

/-- The shared value is equal to the value, of the column, and the stored one if there is one. -/
theorem Linked.sharedValue (hv : v ∈ column) :
    s.sharedValue std v ∈ column ∧ v.ordCmp std (s.sharedValue std v) = .eq ∧
      ∀ e ∈ s.sortedValues, (s.sharedValue std v).ordCmp std e.1 = .eq →
        e.1 = s.sharedValue std v := by
  unfold BTreeIndex.sharedValue
  cases hfind : OrderedMap.getKeyValue (ordCmp std) v s.sortedValues with
  | none =>
    refine ⟨hv, ordCmp_self hc hv, fun e he heq => ?_⟩
    rw [(OrderedMap.getKeyValue_eq_some h.sorted hc hv h.column).mpr ⟨he, heq⟩] at hfind
    cases hfind
  | some d =>
    obtain ⟨hd, heqd⟩ := (OrderedMap.getKeyValue_eq_some h.sorted hc hv h.column).mp hfind
    refine ⟨h.column d hd, heqd, fun e he heq => ?_⟩
    rw [h.sorted.eq_of_cmp_eq hc h.column hd he heq]
    rfl

theorem Linked.attach (hv : v ∈ column) (hr : back r = none) :
    Linked std column (s.attach std v r).sortedValues
      (update back r (some (s.sharedValue std v))) := by
  obtain ⟨hu, -, huniq⟩ := h.sharedValue hc hv
  have hdef : (s.attach std v r).sortedValues = OrderedMap.upsert (ordCmp std)
      (s.sharedValue std v) (fun rows => insertRow r (rows.getD [])) s.sortedValues := rfl
  rw [hdef]
  generalize s.sharedValue std v = u at hu huniq ⊢
  have hfound := fun d => OrderedMap.getKeyValue_eq_some (e := d) h.sorted hc hu h.column
  have hself := ordCmp_self hc hu
  -- the rows that the value has so far
  obtain ⟨old, hpairwise, hold, hentry⟩ : ∃ old : List ℤ, old.Pairwise (· < ·) ∧
      (∀ x, back x = some u ↔ x ∈ old) ∧
      (OrderedMap.getKeyValue (ordCmp std) u s.sortedValues).elim (u, insertRow r [])
        (fun d => (d.1, insertRow r d.2)) = (u, insertRow r old) := by
    cases hfind : OrderedMap.getKeyValue (ordCmp std) u s.sortedValues with
    | none =>
      refine ⟨[], .nil, fun x => iff_of_false (fun hx => ?_) not_mem_nil, rfl⟩
      obtain ⟨rows, hmem, -⟩ := (h.link x u).mp hx
      exact nomatch hfind.symm.trans ((hfound _).mpr ⟨hmem, hself⟩)
    | some d =>
      obtain ⟨hmem, heq⟩ := (hfound d).mp hfind
      obtain rfl := huniq d hmem heq
      exact ⟨d.2, (h.rows d hmem).2, h.mem_rows hc hmem, rfl⟩
  refine h.replace (OrderedMap.sorted_upsert h.sorted hc hu h.column) hu
    (pairwise_insertRow (r := r) hpairwise) (fun e => ?_) fun x w => ?_
  · rw [OrderedMap.mem_upsert h.sorted hc hu h.column]
    refine or_congr (and_congr_right fun he => not_congr ⟨huniq e he, ?_⟩) ?_
    · exact fun heq => heq.symm ▸ hself
    · exact (Eq.congr_right hentry).trans (by simp [insertRow_ne_nil])
  · rw [mem_insertRow]
    by_cases hx : x = r
    · subst hx
      simp [hr, eq_comm]
    · rw [update_of_ne hx]
      by_cases hw : w = u
      · subst hw
        simp [hx, hold]
      · simp [hw]

end

end

/-! ## Commands -/

section

variable {std : LowerExp} {json : Json} {type : DataType} {s : BTreeIndex}
  {t : Rows} {r : ℤ}

theorem follows_column (std : LowerExp) (json : Json) (type : DataType) :
    ∃ place : Value → ℕ ×ₗ (NumberKey ×ₗ Bytes),
      Follows (ordCmp std) place (ofColumn json type) := by
  have hnull : (Value.null .null).validateShape json = .ok () := rfl
  obtain ⟨place, h⟩ := follows_insert std type hnull
  exact ⟨place, h.mono fun a ha => Or.inr ha⟩

theorem Ok.same {v w : Value} (h : Ok std (ofColumn json type) s t) (hv : v ∈ ofColumn json type)
    (hw : s.rowToValue.lookup r = some w) (heq : w.eq std v = true) :
    Ok std (ofColumn json type) s (update t r (some v)) := by
  obtain ⟨place, hc⟩ := follows_column std json type
  obtain ⟨rows, hmem, -⟩ := (h.linked.link r w).mp hw
  have hwc := h.linked.column _ hmem
  have hwv := (ordCmp_eq_iff hwc.1 hv.1).mpr heq
  refine ⟨h.isOpen, h.linked, fun x => ?_⟩
  by_cases hx : x = r
  · subst hx
    rw [update_self, hw]
    exact Rel.some ⟨hv, by rw [hc.swap hwc hv, hwv]; rfl⟩
  · rw [update_of_ne hx]
    exact h.holds x

/-- **Giving a row a value.** -/
theorem Ok.put {v : Value} (h : Ok std (ofColumn json type) s t) (hv : v ∈ ofColumn json type) :
    Ok std (ofColumn json type) (s.put std v r) (update t r (some v)) := by
  obtain ⟨place, hc⟩ := follows_column std json type
  -- from a state where the row has no value, whatever the map back still says of it
  have hattach : ∀ {s' : BTreeIndex}, s'.closed = false → s'.rowToValue = s.rowToValue →
      Linked std (ofColumn json type) s'.sortedValues
        (update s.rowToValue.lookup r none) →
      Ok std (ofColumn json type) (s'.attach std v r) (update t r (some v)) := by
    intro s' hopen hback hlinked
    have hlook : (s'.attach std v r).rowToValue.lookup =
        update s.rowToValue.lookup r (some (s'.sharedValue std v)) := by
      funext x
      rw [BTreeIndex.attach, hback, Table.lookup_insert_if, update_apply]
    have hattached := hlinked.attach hc hv (update_self _ _ _)
    rw [update_idem, ← hlook] at hattached
    refine ⟨hopen, hattached, fun x => ?_⟩
    rw [congrFun hlook x]
    by_cases hx : x = r
    · subst hx
      rw [update_self, update_self]
      exact Rel.some ⟨hv, (hlinked.sharedValue hc hv).2.1⟩
    · rw [update_of_ne hx, update_of_ne hx]
      exact h.holds x
  unfold BTreeIndex.put
  cases hlook : s.rowToValue.lookup r with
  | none =>
    refine hattach h.isOpen rfl ?_
    rw [update_eq_self_iff.mpr hlook.symm]
    exact h.linked
  | some w =>
    dsimp only
    split_ifs with heq
    · exact h.same hv hlook heq
    · exact hattach h.isOpen rfl (h.linked.detach hc hlook)

/-- **Taking a row out.** -/
theorem Ok.drop (h : Ok std (ofColumn json type) s t) :
    Ok std (ofColumn json type) (s.drop std r) (update t r none) := by
  obtain ⟨place, hc⟩ := follows_column std json type
  unfold BTreeIndex.drop
  cases hlook : s.rowToValue.lookup r with
  | none =>
    have hr := h.holds r
    rw [hlook] at hr
    have ht : t r = none := by
      generalize t r = u at hr
      cases hr
      rfl
    rwa [update_eq_self_iff.mpr ht.symm]
  | some w =>
    have herase : (s.rowToValue.erase r).lookup = update s.rowToValue.lookup r none := by
      funext x
      rw [Table.lookup_erase_if, update_apply]
    have hdetached := h.linked.detach hc hlook
    rw [← herase] at hdetached
    refine ⟨h.isOpen, hdetached, fun x => ?_⟩
    rw [congrFun herase x]
    by_cases hx : x = r
    · subst hx
      rw [update_self, update_self]
      exact Rel.none
    · rw [update_of_ne hx, update_of_ne hx]
      exact h.holds x

theorem Ok.putAll (entries : List (ℤ × Value)) (hv : ∀ e ∈ entries, e.2 ∈ ofColumn json type)
    (h : Ok std (ofColumn json type) s t) :
    Ok std (ofColumn json type) (entries.foldl (fun s e => s.put std e.2 e.1) s)
      (entries.foldl (fun t e => update t e.1 (some e.2)) t) := by
  induction entries generalizing s t with
  | nil => exact h
  | cons e entries ih =>
    exact ih (fun d hd => hv d (mem_cons_of_mem _ hd)) (h.put (hv e mem_cons_self))

theorem Ok.dropAll (entries : List (ℤ × List Value)) (h : Ok std (ofColumn json type) s t) :
    Ok std (ofColumn json type) (entries.foldl (fun s e => s.drop std e.1) s)
      (entries.foldl (fun t e => update t e.1 none) t) := by
  induction entries generalizing s t with
  | nil => exact h
  | cons e entries ih => exact ih h.drop

variable {entries : List (ℤ × List Value)}

/-- In a batch where every entry has one value, the rows get these values. -/
theorem foldl_singles (h : ∀ e ∈ entries, e.2.length = 1)
    (t : Rows) : entries.foldl (fun t e => update t e.1 e.2.head?) t =
      (entries.filterMap fun e => e.2.head?.map fun value => (e.1, value)).foldl
        (fun (t : Rows) e => update t e.1 (some e.2)) t := by
  induction entries generalizing t with
  | nil => rfl
  | cons e entries ih =>
    obtain ⟨v, hv⟩ := length_eq_one_iff.mp (h e mem_cons_self)
    have hhead : e.2.head? = some v := by rw [hv]; rfl
    rw [foldl_cons, ih (fun d hd => h d (mem_cons_of_mem _ hd)),
      filterMap_cons_some (by rw [hhead]; rfl), foldl_cons, hhead]

theorem addBatchSlice_ok {s' : BTreeIndex}
    (h : s.addBatchSlice std entries = .ok s') (hne : entries ≠ []) :
    (∀ e ∈ entries, e.2.length = 1) ∧
      s' = (entries.filterMap fun e => e.2.head?.map fun value => (e.1, value)).foldl
        (fun s e => s.put std e.2 e.1) s := by
  rw [addBatchSlice, if_neg hne] at h
  simp only [bind, Except.bind] at h
  split at h
  · cases h
  split at h
  · cases h
  · next hfind =>
    refine ⟨fun e he => by simpa using find?_eq_none.mp hfind e he, ?_⟩
    split_ifs at h with huniq
    · split at h
      · cases h
      split at h
      · cases h
      · exact (ok.inj h).symm
    · exact (ok.inj h).symm

/-- **Every command that succeeds keeps an index in order.** -/
theorem Ok.run {c : Command} {s' : BTreeIndex} (h : Ok std (ofColumn json type) s t)
    (hc : ∀ v ∈ c.values, v ∈ ofColumn json type) (hrun : c.run std s = .ok s') :
    Ok std (ofColumn json type) s' (c.apply t) := by
  have hopen : s.checkClosed = .ok () := by rw [checkClosed, h.isOpen]; rfl
  cases c with
  | add values rowId =>
    simp only [Command.run, add, hopen, bind, Except.bind] at hrun
    split at hrun
    · next value =>
      have hv : value ∈ ofColumn json type := hc value mem_cons_self
      split_ifs at hrun with hsame
      · rw [← ok.inj hrun]
        cases hw : s.rowToValue.lookup rowId with
        | none =>
          rw [hw] at hsame
          cases hsame
        | some w =>
          rw [hw] at hsame
          exact h.same hv hw hsame
      · split at hrun
        · cases hrun
        · rw [← ok.inj hrun]
          exact h.put hv
    · cases hrun
  | remove rowId =>
    simp only [Command.run, remove, hopen, bind, Except.bind, ok.injEq] at hrun
    rw [← hrun]
    exact h.drop
  | addBatchSlice entries =>
    by_cases hnil : entries = []
    · rw [Command.run, addBatchSlice, if_pos hnil] at hrun
      rwa [← ok.inj hrun, hnil]
    · obtain ⟨hsingle, rfl⟩ := addBatchSlice_ok hrun hnil
      rw [Command.apply, foldl_singles hsingle]
      refine h.putAll _ fun e he => ?_
      obtain ⟨d, hd, hde⟩ := mem_filterMap.mp he
      obtain ⟨v, hv, rfl⟩ := map_eq_some_iff.mp hde
      exact hc v (mem_flatMap.mpr ⟨d, hd, mem_of_head? hv⟩)
  | removeBatchSlice entries =>
    simp only [Command.run, removeBatchSlice, hopen, bind] at hrun
    split_ifs at hrun with hnil
    · rwa [← ok.inj hrun, hnil]
    · rw [← ok.inj hrun]
      exact h.dropAll entries

theorem ok_new (std : LowerExp) (column : Set Value) (name columnName : String) (unique : Bool) :
    Ok std column (new name columnName unique) fun _ => none where
  isOpen := rfl
  linked := by
    refine ⟨List.Pairwise.nil, fun e he => absurd he not_mem_nil,
      fun e he => absurd he not_mem_nil, fun r w => ?_⟩
    refine iff_of_false (by simp [new]) ?_
    rintro ⟨rows, hrows, -⟩
    cases hrows
  holds _ := Rel.none

/-- A step keeps an index in order, whether the command succeeds or not. -/
theorem ok_step {x : BTreeIndex × Rows} {c : Command} (h : Ok std (ofColumn json type) x.1 x.2)
    (hc : ∀ v ∈ c.values, v ∈ ofColumn json type) :
    Ok std (ofColumn json type) (step std x c).1.1 (step std x c).1.2 := by
  unfold step
  cases hrun : c.run std x.1 with
  | ok s' => exact h.run hc hrun
  | error e => exact h

/-- **An index is in order at every moment of every run** whose values are of the column. -/
theorem ok_after {name columnName : String} {unique : Bool} {ops : List Command}
    (hops : ∀ c ∈ ops, ∀ v ∈ c.values, v ∈ ofColumn json type) (m : ℕ) :
    Ok std (ofColumn json type)
      (Run.after (step std) (new name columnName unique, fun _ => none) ops m).1
      (Run.after (step std) (new name columnName unique, fun _ => none) ops m).2 :=
  Run.after_while (P := fun x : BTreeIndex × Rows => Ok std (ofColumn json type) x.1 x.2)
    (Q := fun _ => True) (Nat.zero_le m) (ok_new std (ofColumn json type) name columnName unique)
    (fun _ _ _ => trivial)
    fun _ c _ hget _ h => ok_step h (hops c (mem_of_getElem? hget))

/-- **The two maps of an index stay inverse**, at every moment of every run with values of the
column, and a row maps back to what it was last added with. -/
theorem maps_inverse (name columnName : String) (unique : Bool)
    (ops : List {c : Command // ∀ v ∈ c.values, v ∈ ofColumn json type}) (m : ℕ) :
    let x := Run.after (step std) (new name columnName unique, fun _ => none) (ops.map (·.1)) m
    OrderedMap.Sorted (ordCmp std) x.1.sortedValues ∧
    (∀ e ∈ x.1.sortedValues, e.2 ≠ [] ∧ e.2.Pairwise (· < ·)) ∧
    (∀ r v, x.1.rowToValue.lookup r = some v ↔ ∃ rows, (v, rows) ∈ x.1.sortedValues ∧ r ∈ rows) ∧
    ∀ r, Rel (fun v w => v ∈ ofColumn json type ∧ v.ordCmp std w = .eq) (x.2 r)
      (x.1.rowToValue.lookup r) := by
  intro x
  have h : Ok std (ofColumn json type) x.1 x.2 := ok_after (forall_mem_map.mpr fun c _ => c.2) m
  exact ⟨h.linked.sorted, h.linked.rows, h.linked.link, h.holds⟩

end

end RadixDb.BTreeIndex

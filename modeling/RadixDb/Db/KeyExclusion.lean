import RadixDb.Db.FirstCommitter
import RadixDb.Db.KeyInvariant

/-!
# UNIQUE keys exclude each other

The system keeps the invariant of every transaction's keys (`UniqueDb.Ok.step`): what an operation
makes of its own transaction is in `KeysOk`, and it leaves the claims of the others alone. From
there `unique_claims_exclude` says what claims mean at every moment of every run.

What a call can do is said once (`put_cases`, `putBatch_cases`, `writeNext_cases`); the invariant,
the calls that fail (`SameKeys`) and the transactions that are over (`Released`) are read off that.
-/

namespace RadixDb

open Function Option List

variable {V : Type}

open TransactionRegistry VersionStore

/-! ## Steps -/

section

variable [DecidableEq V] (schema : UniqueSchema V)

/-- The invariant, of every transaction. -/
def UniqueDb.Ok (s : UniqueDb V) : Prop :=
  ∀ t, KeysOk schema s.shared s.clock t (s.keys t) (s.txns.stores t) (s.boundaries t)
    (s.statements t)

variable {schema} {s : UniqueDb V} {t : Int}

theorem lt_nextTimestamp (now last : Int) : last < nextTimestamp now last := by
  unfold nextTimestamp
  split <;> omega

/-- A step of transaction `t`: what it makes of `t`, and that it leaves the others alone. -/
theorem UniqueDb.Ok.of_txn {s' : UniqueDb V} (h : s.Ok schema) (t : Int)
    (hself : KeysOk schema s'.shared s'.clock t (s'.keys t) (s'.txns.stores t) (s'.boundaries t)
      (s'.statements t)) (hshared : ∀ u, u ≠ t → ∀ k row,
      s'.shared.lookup k = some ⟨u, row⟩ ↔ s.shared.lookup k = some ⟨u, row⟩)
    (hclock : s.clock ≤ s'.clock) (hkeys : ∀ u, u ≠ t → s'.keys u = s.keys u)
    (hlocals : ∀ u, u ≠ t → (s'.txns.stores u).localVersions = (s.txns.stores u).localVersions)
    (hterm : ∀ u, u ≠ t → (s'.txns.stores u).terminal = (s.txns.stores u).terminal)
    (hbs : ∀ u, u ≠ t → s'.boundaries u = s.boundaries u)
    (hst : ∀ u, u ≠ t → s'.statements u = s.statements u) : s'.Ok schema := by
  intro u
  by_cases hu : u = t
  · rwa [hu]
  · rw [hkeys u hu, hbs u hu, hst u hu]
    exact (h u).frame (hshared u hu) hclock (hlocals u hu) (hterm u hu)

theorem UniqueDb.Ok.untouched (h : s.Ok schema) {txns : TxnDb V} (hu : Untouched s.txns txns)
    {clock : Int} (hclock : s.clock ≤ clock) :
    UniqueDb.Ok schema { s with txns := txns, clock := clock } :=
  fun u => (h u).frame (fun _ _ => Iff.rfl) hclock (hu.locals u) (hu.terminal u)

theorem UniqueDb.Ok.savepoint (h : s.Ok schema) (hst : s.statements t = none) (now : Int) :
    UniqueDb.Ok schema (UniqueDb.addBoundary { s with clock := nextTimestamp now s.clock } t
      (nextTimestamp now s.clock)) := by
  have hlt := lt_nextTimestamp now s.clock
  refine h.of_txn t ?_ (fun _ _ _ _ => Iff.rfl) hlt.le (fun _ _ => rfl) (fun _ _ => rfl)
    (fun _ _ => rfl) (fun u hu => update_of_ne hu _ _) fun _ _ => rfl
  have ht := h t
  simp only [UniqueDb.addBoundary, update_self, hst] at ht ⊢
  refine ⟨ht.owned, ht.current, ht.carried, ht.held, fun b hb row v hv htime hlive k hk c hc => ?_,
    forall_mem_cons.mpr ⟨le_rfl, fun b hb => (ht.bounds b hb).trans hlt.le⟩,
    fun k c hk => (ht.times k c hk).trans hlt.le, fun _ hx => (by cases hx)⟩
  rcases mem_cons.mp hb with rfl | hb
  · exact (ht.times k c hc).trans hlt.le
  · exact ht.first b hb row v hv htime hlive k hk c hc

theorem exists_batchKind (isDelete : Bool) : ∃ kind : BatchKind, kind.isDelete = isDelete := by
  cases isDelete
  exacts [⟨.insertOrUpdate, rfl⟩, ⟨.delete, rfl⟩]

variable {row now : Int} {attempt : Attempt V} {e : StoreError}

omit [DecidableEq V] in
theorem write_cases (txns : TxnDb V) (t row : Int) (hasOriginal : Bool)
    (version : PublishedVersion V) (reserved : Except StoreError Unit) :
    (∃ txns', UniqueDb.write txns t row hasOriginal version reserved = (txns', .ok ()) ∧
        reserved = .ok () ∧ WrittenTo t row version txns txns') ∨
      ∃ txns' e, UniqueDb.write txns t row hasOriginal version reserved = (txns', .error e) ∧
        Untouched txns txns' := by
  have hw : WriteCases t row version reserved txns
      (UniqueDb.write txns t row hasOriginal version reserved) := by
    unfold UniqueDb.write
    split
    · exact putWithOriginal_cases reserved
    · exact putInternal_cases reserved
  rcases hw with ⟨hok, hres, hwritten⟩ | ⟨⟨e, herr⟩, hu⟩
  · exact .inl ⟨_, Prod.ext rfl hok, hres, hwritten⟩
  · exact .inr ⟨_, e, Prod.ext rfl herr, hu⟩

/-- What a write can do: take its keys and store its version, or fail and change neither. -/
theorem UniqueDb.put_cases (schema : UniqueSchema V) (s : UniqueDb V) (t row : Int) (data : List V)
    (isDelete hasOriginal : Bool) (now : Int) (attempt : Attempt V) :
    (∃ timestamp claimedAt claims txns, s.clock < timestamp ∧ timestamp < claimedAt ∧
      s.reserve schema t [proposedRow isDelete (row, data)] attempt claimedAt = .ok claims ∧
      WrittenTo t row (writtenVersion t data isDelete timestamp) s.txns txns ∧
      s.put schema t row data isDelete hasOriginal now attempt =
        ({ s.setKeys t claims with txns := txns, clock := claimedAt }, .ok ())) ∨
    (∃ txns clock e, Untouched s.txns txns ∧ s.clock ≤ clock ∧
      s.put schema t row data isDelete hasOriginal now attempt =
        ({ s with txns := txns, clock := clock }, .error e)) := by
  have hts := lt_nextTimestamp now s.clock
  have hca := lt_nextTimestamp now (nextTimestamp now s.clock)
  unfold UniqueDb.put
  dsimp only
  generalize nextTimestamp now s.clock = timestamp at hts hca ⊢
  generalize nextTimestamp now timestamp = claimedAt at hca ⊢
  generalize hclaims : s.reserve schema t [proposedRow isDelete (row, data)] attempt claimedAt =
    claims
  obtain ⟨txns, hw, hres, hwritten⟩ | ⟨txns, e, hw, hu⟩ := write_cases s.txns t row hasOriginal
    (writtenVersion t data isDelete timestamp) (claims.map fun _ => ())
  · rw [hw]
    cases claims with
    | error e => cases hres
    | ok claims =>
      exact .inl ⟨timestamp, claimedAt, claims, txns, hts, hca, hclaims, hwritten, rfl⟩
  · rw [hw]
    exact .inr ⟨txns, timestamp, e, hu, hts.le, rfl⟩

theorem UniqueDb.Ok.put (h : s.Ok schema) (hst : s.statements t = none) (ht : 0 < t) (row : Int)
    (data : List V) (isDelete hasOriginal : Bool) (now : Int) (attempt : Attempt V) :
    (s.put schema t row data isDelete hasOriginal now attempt).1.Ok schema := by
  rcases s.put_cases schema t row data isDelete hasOriginal now attempt with
    ⟨timestamp, claimedAt, claims, txns, hts, hca, hclaims, hwritten, heq⟩ |
    ⟨txns, clock, e, hu, hclock, heq⟩
  · rw [heq]
    have hself := h t
    rw [hst] at hself
    obtain ⟨kind, rfl⟩ := exists_batchKind isDelete
    have hrsv := hself.reserved hwritten.active hclaims
    have hbegun := hself.begin hwritten.active ⟨kind, s.clock, timestamp, [(row, data)]⟩
      hrsv (by simp) le_rfl hts hca.le
    have hlater : ∀ b ∈ s.clock :: s.boundaries t, b < timestamp :=
      forall_mem_cons.mpr ⟨hts, fun b hb => (hself.bounds b hb).trans_lt hts⟩
    have hdone := hbegun.writeNext (by omega) rfl hlater le_rfl hwritten.self
      (hwritten.terminal t)
    refine h.of_txn t ?_ hrsv.others (by show s.clock ≤ claimedAt; omega)
      (fun u hu => update_of_ne hu _ _) hwritten.other (fun u _ => hwritten.terminal u)
      (fun _ _ => rfl) fun _ _ => rfl
    simp only [UniqueDb.setKeys, update_self, hst]
    exact (hdone.finish rfl).boundaries fun b hb => mem_cons_of_mem _ hb
  · rw [heq]
    exact h.untouched hu hclock

theorem UniqueDb.putBatch_cases (schema : UniqueSchema V) (s : UniqueDb V) (t : Int)
    (kind : BatchKind) (rows : List (Int × List V)) (now : Int) (attempt : Attempt V) :
    (∃ boundary stamp claimedAt claims, (s.txns.stores t).terminal = false ∧
      s.clock < boundary ∧ boundary < stamp ∧ stamp < claimedAt ∧
      s.reserve schema t (rows.map (proposedRow kind.isDelete)) attempt claimedAt = .ok claims ∧
      s.putBatch schema t kind rows now attempt =
        (({ s.setKeys t claims with clock := claimedAt }.addBoundary t boundary).setStatement t
          (if rows.isEmpty then none else some ⟨kind, boundary, stamp, rows⟩), .ok ())) ∨
    (∃ clock e, s.clock ≤ clock ∧
      s.putBatch schema t kind rows now attempt = ({ s with clock := clock }, .error e)) := by
  have hb := lt_nextTimestamp now s.clock
  have hs := lt_nextTimestamp now (nextTimestamp now s.clock)
  have hc := lt_nextTimestamp now (nextTimestamp now (nextTimestamp now s.clock))
  unfold UniqueDb.putBatch
  split
  · exact .inr ⟨s.clock, _, le_rfl, rfl⟩
  next hterm =>
    dsimp only
    generalize nextTimestamp now s.clock = boundary at hb hs hc ⊢
    generalize nextTimestamp now boundary = stamp at hs hc ⊢
    generalize nextTimestamp now stamp = claimedAt at hc ⊢
    split
    · exact .inr ⟨stamp, _, by omega, rfl⟩
    next claims hclaims =>
      exact .inl ⟨boundary, stamp, claimedAt, claims, by simpa using hterm, hb, hs, hc, hclaims,
        rfl⟩

variable {rows : List (Int × List V)}

theorem UniqueDb.Ok.putBatch (h : s.Ok schema) (hst : s.statements t = none) (kind : BatchKind)
    (hrows : (rows.map (·.1)).Nodup) (now : Int) (attempt : Attempt V) :
    (s.putBatch schema t kind rows now attempt).1.Ok schema := by
  rcases s.putBatch_cases schema t kind rows now attempt with
    ⟨boundary, stamp, claimedAt, claims, hact, hb, hs, hc, hclaims, heq⟩ | ⟨clock, e, hclock, heq⟩
  · rw [heq]
    have hself := h t
    rw [hst] at hself
    have hrsv := hself.reserved hact hclaims
    have hbegun := hself.begin hact ⟨kind, boundary, stamp, rows⟩ hrsv hrows hb.le hs hc.le
    refine h.of_txn t ?_ hrsv.others (by show s.clock ≤ claimedAt; omega)
      (fun u hu => update_of_ne hu _ _) (fun _ _ => rfl) (fun _ _ => rfl)
      (fun u hu => update_of_ne hu _ _) fun u hu => update_of_ne hu _ _
    simp only [UniqueDb.setStatement, UniqueDb.addBoundary, UniqueDb.setKeys, update_self]
    split
    next hempty => exact hbegun.finish (isEmpty_iff.mp hempty)
    next => exact hbegun
  · rw [heq]
    exact h.untouched (Untouched.refl s.txns) hclock

/-- A rollback ends whatever statement its transaction is in. -/
theorem UniqueDb.Ok.rollbackTo (h : s.Ok schema) (hact : (s.txns.stores t).terminal = false)
    {timestamp : Int} (hts : timestamp ∈ s.boundaries t) :
    ((s.rollbackTo schema t timestamp).setStatement t none).Ok schema := by
  obtain ⟨hrolled, htimes⟩ := rollbackToTimestamp_spec s.txns t timestamp hact
  unfold UniqueDb.rollbackTo
  simp only [hact, Bool.false_eq_true, if_false]
  obtain ⟨hself, hothers⟩ := (h t).rollback hts fun row v hv =>
    ⟨hrolled.holds row v hv, htimes row v hv⟩
  refine h.of_txn t ?_ hothers le_rfl (fun u hu => update_of_ne hu _ _)
    hrolled.other (fun u _ => hrolled.terminal u) (fun _ _ => rfl)
    fun u hu => update_of_ne hu _ _
  simp only [UniqueDb.setStatement, UniqueDb.setKeys, update_self]
  exact hself

/-- What the next write of a statement can do: store its version, or take the statement back. -/
theorem UniqueDb.writeNext_cases (schema : UniqueSchema V) (s : UniqueDb V) (t : Int)
    (st : Statement V) (row : Int) (data : List V) (rest : List (Int × List V)) (now : Int) :
    ∃ timestamp txns, (timestamp = st.stamp ∨ s.clock < timestamp) ∧
      ((WrittenTo t row (writtenVersion t data st.kind.isDelete timestamp) s.txns txns ∧
        s.writeNext schema t st row data rest now =
          (({ s with txns := txns, clock := max s.clock timestamp } : UniqueDb V).setStatement t
            (if rest.isEmpty then none else some { st with pending := rest }), .ok ())) ∨
      ∃ e, Untouched s.txns txns ∧ s.writeNext schema t st row data rest now =
        ((({ s with txns := txns, clock := max s.clock timestamp } : UniqueDb V).rollbackTo schema t
          st.boundary).setStatement t none, .error e)) := by
  have hlater : (if st.kind.isStamped then st.stamp else nextTimestamp now s.clock) = st.stamp ∨
      s.clock < if st.kind.isStamped then st.stamp else nextTimestamp now s.clock := by
    split
    exacts [.inl rfl, .inr (lt_nextTimestamp now s.clock)]
  unfold UniqueDb.writeNext
  dsimp only
  generalize (if st.kind.isStamped then st.stamp else nextTimestamp now s.clock) = timestamp
    at hlater ⊢
  obtain ⟨txns, hw, -, hwritten⟩ | ⟨txns, e, hw, hu⟩ := write_cases s.txns t row
    st.kind.hasOriginals (writtenVersion t data st.kind.isDelete timestamp) (.ok ())
  · exact ⟨timestamp, txns, hlater, .inl ⟨hwritten, by rw [hw]⟩⟩
  · exact ⟨timestamp, txns, hlater, .inr ⟨e, hu, by rw [hw]⟩⟩

theorem UniqueDb.Ok.writeNext (h : s.Ok schema) (ht : 0 < t) {st : Statement V}
    (hst : s.statements t = some st) {data : List V} {rest : List (Int × List V)}
    (hp : st.pending = (row, data) :: rest) (now : Int) :
    (s.writeNext schema t st row data rest now).1.Ok schema := by
  have hself := h t
  rw [hst] at hself
  have hstatement := hself.statement st rfl
  obtain ⟨timestamp, txns, htime, hcases⟩ := s.writeNext_cases schema t st row data rest now
  have hclock : s.clock ≤ max s.clock timestamp := le_max_left _ _
  have hlater : ∀ b ∈ s.boundaries t, b < timestamp := by
    intro b hb
    rcases htime with rfl | hlt
    · exact hstatement.stamp b hb
    · exact (hself.bounds b hb).trans_lt hlt
  rcases hcases with ⟨hwritten, heq⟩ | ⟨e, hu, heq⟩
  · rw [heq]
    have hnext := hself.writeNext (by omega) hp hlater hclock hwritten.self (hwritten.terminal t)
    refine h.of_txn t ?_ (fun _ _ _ _ => Iff.rfl) hclock (fun _ _ => rfl) hwritten.other
      (fun u _ => hwritten.terminal u) (fun _ _ => rfl) fun u hu => update_of_ne hu _ _
    simp only [UniqueDb.setStatement, update_self]
    split
    next hempty => exact hnext.finish (isEmpty_iff.mp hempty)
    next => exact hnext
  · rw [heq]
    exact (h.untouched hu hclock).rollbackTo ((hu.terminal t).trans hstatement.active)
      hstatement.boundary

omit [DecidableEq V] in
theorem stores_discard (txns : TxnDb V) (t : Int) :
    (txns.discard t).stores = update txns.stores t .closed :=
  rfl

theorem UniqueDb.Ok.discard (h : s.Ok schema) (t : Int) : (s.discard t).Ok schema := by
  obtain ⟨hself, hothers⟩ := (h t).release
  refine h.of_txn t ?_ hothers le_rfl (fun u hu => update_of_ne hu _ _) ?_ ?_
    (fun u hu => update_of_ne hu _ _) fun u hu => update_of_ne hu _ _
  · simp only [UniqueDb.discard, UniqueDb.setKeys, update_self, stores_discard]
    exact hself
  all_goals
    intro u hu
    simp [UniqueDb.discard, stores_discard, hu]

theorem UniqueDb.Ok.commit (h : s.Ok schema) (hst : s.statements t = none)
    (indexes : Except StoreError Unit) : (s.commit t indexes).1.Ok schema := by
  have hdone : UniqueDb.Ok schema { s with txns := s.txns.committed t } := by
    refine h.of_txn t ?_ (fun _ _ _ _ => Iff.rfl) le_rfl (fun _ _ => rfl)
      (fun u hu => by rw [stores_committed s.txns hu])
      (fun u hu => by rw [stores_committed s.txns hu]) (fun _ _ => rfl) fun _ _ => rfl
    have hself := h t
    have hlocals : ((s.txns.committed t).stores t).localVersions = ∅ := by
      simp [TxnDb.committed, TxnDb.setStore]
    have hnone : ∀ row v, ¬ ((s.txns.committed t).stores t).Holds row v := by
      rintro row v ⟨vs, hvs, -⟩
      rw [hlocals] at hvs
      simp at hvs
    refine ⟨hself.owned, hself.current, fun hact => ?_, fun row v hv => absurd hv (hnone row v),
      fun b _ row v hv => absurd hv (hnone row v), hself.bounds, hself.times, fun x hx => ?_⟩
    · exact absurd hact (by simp [terminal_committed])
    · cases hst.symm.trans hx
  unfold UniqueDb.commit
  dsimp only
  rcases s.txns.act_commit t with ⟨-, heq⟩ | ⟨-, hsame, -⟩
  · rw [heq]
    split
    · exact h
    · exact hdone
  · split
    · exact h
    · rwa [hsame]

/-- The rows of a statement are distinct. -/
def UniqueOp.Distinct : UniqueOp V → Prop
  | .putBatch _ _ rows _ _ => (rows.map (·.1)).Nodup
  | _ => True

theorem UniqueDb.Ok.step (h : s.Ok schema) {op : UniqueOp V} (hop : op.Distinct) :
    (s.step schema op).1.Ok schema := by
  unfold UniqueDb.step
  split
  next => exact h
  next hrefuses =>
    -- who calls is a transaction, and it is between statements unless it goes on with one
    have hcaller : ∀ t, op.caller = some t → 0 < t ∧
        (op.midStatement = false → s.statements t = none) := by
      intro t ht
      simp only [UniqueDb.refuses, ht, any_some, Bool.or_eq_true, decide_eq_true_eq,
        Bool.and_eq_true, Bool.not_eq_true', not_or, not_and, not_isSome_iff_eq_none] at hrefuses
      exact ⟨by omega, hrefuses.2⟩
    cases op with
    | registry rop | fetch t row => exact h.untouched (Untouched.of_stores rfl) le_rfl
    | claimRows t rows now =>
      exact h.untouched (Untouched.claimRowsForOperation s.txns t rows now) le_rfl
    | savepoint t now => exact h.savepoint ((hcaller t rfl).2 rfl) now
    | put t row data isDelete hasOriginal now attempt =>
      dsimp only
      split
      · exact h
      · exact h.put ((hcaller t rfl).2 rfl) (hcaller t rfl).1 _ _ _ _ _ _
    | putBatch t kind rows now attempt =>
      dsimp only
      split
      · exact h
      · exact h.putBatch ((hcaller t rfl).2 rfl) kind hop now attempt
    | writeNext t now =>
      dsimp only
      split
      next st hst =>
        split
        next row data rest hp => exact h.writeNext (hcaller t rfl).1 hst hp now
        next hp =>
          refine h.of_txn t ?_ (fun _ _ _ _ => Iff.rfl) le_rfl (fun _ _ => rfl) (fun _ _ => rfl)
            (fun _ _ => rfl) (fun _ _ => rfl) fun u hu => update_of_ne hu _ _
          have hself := h t
          rw [hst] at hself
          simp only [UniqueDb.setStatement, update_self]
          exact hself.finish hp
      next => exact h
    | rollbackTo t timestamp =>
      dsimp only
      split
      next hts =>
        have hst := (hcaller t rfl).2 rfl
        cases hact : (s.txns.stores t).terminal with
        | true =>
          simp only [UniqueDb.rollbackTo, hact, if_true]
          exact h
        | false =>
          have hsame : (s.rollbackTo schema t timestamp).setStatement t none =
              s.rollbackTo schema t timestamp := by
            simp [UniqueDb.rollbackTo, hact, UniqueDb.setStatement, UniqueDb.setKeys, ← hst,
              update_eq_self]
          rw [← hsame]
          exact h.rollbackTo hact hts
      next => exact h
    | commit t indexes => exact h.commit ((hcaller t rfl).2 rfl) indexes
    | discard t => exact h.discard t

/-! ### A reservation that fails -/

/-- No claim, no key and no version changes. -/
structure SameKeys (s s' : UniqueDb V) : Prop where
  shared : s'.shared = s.shared
  keys : s'.keys = s.keys
  statements : s'.statements = s.statements
  untouched : Untouched s.txns s'.txns

theorem UniqueDb.put_error {data : List V} {isDelete hasOriginal : Bool}
    (h : (s.put schema t row data isDelete hasOriginal now attempt).2 = .error e) :
    SameKeys s (s.put schema t row data isDelete hasOriginal now attempt).1 := by
  rcases s.put_cases schema t row data isDelete hasOriginal now attempt with
    ⟨_, _, _, _, -, -, -, -, heq⟩ | ⟨txns, clock, e', hu, -, heq⟩
  · rw [heq] at h
    cases h
  · rw [heq]
    exact ⟨rfl, rfl, rfl, hu⟩

theorem UniqueDb.putBatch_error {kind : BatchKind}
    (h : (s.putBatch schema t kind rows now attempt).2 = .error e) :
    SameKeys s (s.putBatch schema t kind rows now attempt).1 := by
  rcases s.putBatch_cases schema t kind rows now attempt with
    ⟨_, _, _, _, -, -, -, -, -, heq⟩ | ⟨clock, e', -, heq⟩
  · rw [heq] at h
    cases h
  · rw [heq]
    exact ⟨rfl, rfl, rfl, Untouched.refl _⟩

/-- The calls that reserve keys. -/
def UniqueOp.reserves : UniqueOp V → Bool
  | .put .. | .putBatch .. => true
  | _ => false

theorem UniqueDb.step_error {op : UniqueOp V} (hop : op.reserves = true)
    (h : (s.step schema op).2 = .result (.error e)) : SameKeys s (s.step schema op).1 := by
  unfold UniqueDb.step at h ⊢
  split_ifs at h ⊢
  cases op with
  | put t row data isDelete hasOriginal now attempt =>
    dsimp only at h ⊢
    split_ifs at h ⊢
    exact UniqueDb.put_error (TxnOutcome.result.inj h)
  | putBatch t kind rows now attempt =>
    dsimp only at h ⊢
    split_ifs at h ⊢
    exact UniqueDb.putBatch_error (TxnOutcome.result.inj h)
  | _ => cases hop

/-! ### A transaction that is over -/

/-- Its store is closed and it claims nothing. -/
structure Released (t : Int) (s : UniqueDb V) : Prop where
  terminal : (s.txns.stores t).terminal = true
  keys : s.keys t = .new

theorem Released.discard (s : UniqueDb V) (t : Int) : Released t (s.discard t) := by
  refine ⟨?_, ?_⟩
  · simp [UniqueDb.discard, stores_discard, TransactionVersionStore.closed]
  · simp [UniqueDb.discard, UniqueDb.setKeys, releaseRetainedUniqueKeys]

/-- The keys of a transaction that is active are its own. -/
theorem Released.setKeys {u : Int} (h : Released t s) (hact : (s.txns.stores u).terminal = false)
    (claims : SharedUniqueClaimMap V × UniqueKeys V) : (s.setKeys u claims).keys t = .new := by
  have hu : t ≠ u := by
    rintro rfl
    cases h.terminal.symm.trans hact
  simpa [UniqueDb.setKeys, hu] using h.keys

theorem Released.rollbackTo (h : Released t s) (u timestamp : Int) :
    Released t (s.rollbackTo schema u timestamp) := by
  unfold UniqueDb.rollbackTo
  split
  · exact h
  next hterm =>
    have hact : (s.txns.stores u).terminal = false := by simpa using hterm
    obtain ⟨hrolled, -⟩ := rollbackToTimestamp_spec s.txns u timestamp hact
    exact ⟨(hrolled.terminal t).trans h.terminal, h.setKeys hact _⟩

theorem Released.step (h : Released t s) (op : UniqueOp V) : Released t (s.step schema op).1 := by
  unfold UniqueDb.step
  split
  · exact h
  cases op with
  | registry rop | fetch u row | savepoint u now => exact ⟨h.terminal, h.keys⟩
  | claimRows u rows now =>
    have hu := Untouched.claimRowsForOperation s.txns u rows now
    exact ⟨(hu.terminal t).trans h.terminal, h.keys⟩
  | put u row data isDelete hasOriginal now attempt =>
    dsimp only
    split
    · exact h
    rcases s.put_cases schema u row data isDelete hasOriginal now attempt with
      ⟨_, _, claims, txns, -, -, -, hwritten, heq⟩ | ⟨txns, clock, e, hu, -, heq⟩
    · rw [heq]
      exact ⟨(hwritten.terminal t).trans h.terminal, h.setKeys hwritten.active claims⟩
    · rw [heq]
      exact ⟨(hu.terminal t).trans h.terminal, h.keys⟩
  | putBatch u kind rows now attempt =>
    dsimp only
    split
    · exact h
    rcases s.putBatch_cases schema u kind rows now attempt with
      ⟨_, _, _, claims, hact, -, -, -, -, heq⟩ | ⟨clock, e, -, heq⟩
    · rw [heq]
      exact ⟨h.terminal, h.setKeys hact claims⟩
    · rw [heq]
      exact ⟨h.terminal, h.keys⟩
  | writeNext u now =>
    dsimp only
    split
    next st _ =>
      split
      next row data rest _ =>
        obtain ⟨timestamp, txns, -, ⟨hwritten, heq⟩ | ⟨e, hu, heq⟩⟩ :=
          s.writeNext_cases schema u st row data rest now
        · rw [heq]
          exact ⟨(hwritten.terminal t).trans h.terminal, h.keys⟩
        · rw [heq]
          have hwritten : Released t { s with txns := txns, clock := max s.clock timestamp } :=
            ⟨(hu.terminal t).trans h.terminal, h.keys⟩
          have hrolled := @Released.rollbackTo _ _ schema _ _ hwritten u st.boundary
          exact ⟨hrolled.terminal, hrolled.keys⟩
      next => exact ⟨h.terminal, h.keys⟩
    next => exact h
  | rollbackTo u timestamp =>
    dsimp only
    split
    · exact h.rollbackTo u timestamp
    · exact h
  | commit u indexes =>
    unfold UniqueDb.commit
    dsimp only
    split
    · exact h
    · refine ⟨?_, h.keys⟩
      rcases s.txns.act_commit u with ⟨-, heq⟩ | ⟨-, heq, -⟩
      · rw [heq]
        by_cases hu : t = u
        · rw [hu]
          exact terminal_committed s.txns u
        · rw [stores_committed s.txns hu]
          exact h.terminal
      · rw [heq]
        exact h.terminal
  | discard u =>
    by_cases hu : t = u
    · subst hu
      exact Released.discard s t
    · refine ⟨?_, ?_⟩
      · simpa [UniqueDb.discard, stores_discard, hu] using h.terminal
      · simpa [UniqueDb.discard, UniqueDb.setKeys, hu] using h.keys

/-! ### A statement that finds its keys free -/

/-- A statement of a transaction that is not in the middle of another: the keys of its rows can be
computed, its final view has no duplicate, and no other transaction claims a key that it takes, so
that it need not wait. -/
structure FreeStatement (schema : UniqueSchema V) (s : UniqueDb V) (t : Int) (kind : BatchKind)
    (rows : List (Int × List V)) (attempt : Attempt V) : Prop where
  positive : 0 < t
  idle : s.statements t = none
  active : (s.txns.stores t).terminal = false
  reads : kind.hasOriginals = true → ∀ p ∈ rows, s.hasRead t p.1 = true
  noWait : attempt.waited = false
  keys : kind.isDelete = false → ∀ p ∈ rows, ∃ ks, schema.uniqueKeysForRow p.2 = .ok ks
  noDuplicate : ∀ r r' k,
    FinalKey schema (s.txns.stores t) (rows.map (proposedRow kind.isDelete)) r k →
    FinalKey schema (s.txns.stores t) (rows.map (proposedRow kind.isDelete)) r' k → r = r'
  unclaimed : ∀ r k, ProposedKey schema (rows.map (proposedRow kind.isDelete)) r k →
    ∀ owner, s.shared.lookup k = some owner → owner.txnId = t

/-- **A statement may exchange keys among its rows.** -/
theorem UniqueDb.Ok.putBatch_ok (h : s.Ok schema) {kind : BatchKind}
    (hfree : FreeStatement schema s t kind rows attempt) :
    (s.putBatch schema t kind rows now attempt).2 = .ok () := by
  obtain ⟨-, hst, hact, -, hwait, hkeys, hdup, hunclaimed⟩ := hfree
  have hself := h t
  rw [hst] at hself
  have hcarried := hself.carried hact
  obtain ⟨changed, hchg⟩ := @keyChanges_ok _ _ schema (s.keys t).current (s.txns.stores t)
    (rows.map (proposedRow kind.isDelete)) hcarried
    (fun row v hv hlive => (hself.held row v
      (TransactionVersionStore.holds_getLocalVersion hv) hlive).imp fun _ hks => hks.1)
    (fun row data hmem => by
      obtain ⟨hdel, hp⟩ := mem_map_proposedRow.mp hmem
      exact hkeys hdel (row, data) hp) hdup
  -- a key of the changes is taken here, or still has the row of the transaction that had it
  have hforeign : foreignOwner s.shared t changed = none := by
    refine foreignOwner_eq_none_of fun k row hk owner ho => ?_
    rcases (Progress.keyChanges hchg).owner k row hk with hp | ⟨hcur, -⟩
    · exact hunclaimed row k hp owner ho
    · cases (hself.current k row hcur).symm.trans ho
      rfl
  have hreserve : ∀ claimedAt, ∃ claims,
      s.reserve schema t (rows.map (proposedRow kind.isDelete)) attempt claimedAt = .ok claims := by
    intro claimedAt
    unfold UniqueDb.reserve reserveUniqueKeysForRows
    split
    · exact ⟨_, rfl⟩
    split
    · exact ⟨_, rfl⟩
    · simp only [hchg, hforeign, hwait, Bool.false_eq_true, if_false]
      exact ⟨_, rfl⟩
  obtain ⟨claims, hclaims⟩ := hreserve
    (nextTimestamp now (nextTimestamp now (nextTimestamp now s.clock)))
  simp [UniqueDb.putBatch, hact, hclaims]

end

/-! ## Runs -/

/-- A run of transactions on a table with UNIQUE indexes, every statement over distinct rows. -/
structure UniqueRun (V : Type) [DecidableEq V] where
  schema : UniqueSchema V
  epoch : Nat
  recovery : List RecoveryCall
  contents : VersionStore V
  ops : List (UniqueOp V)
  distinct : ∀ op ∈ ops, op.Distinct

namespace UniqueRun

variable [DecidableEq V] (run : UniqueRun V)

def start : UniqueDb V where
  txns := ⟨⟨World.start run.epoch run.recovery, run.contents⟩, fun _ => .new, fun _ => ∅, 0⟩
  shared := ∅
  keys _ := .new
  clock := 0
  boundaries _ := []
  statements _ := none

/-- The system at moment `m`. -/
def stateAt (m : Nat) : UniqueDb V := Run.after (UniqueDb.step run.schema) run.start run.ops m

/-- What operation number `k` returned. -/
def outcomeAt (k : Nat) : Option TxnOutcome :=
  Run.outcome (UniqueDb.step run.schema) run.start run.ops k

variable {run}

theorem ok_at (m : Nat) : (run.stateAt m).Ok run.schema :=
  Run.after_while (Q := fun _ => True) (Nat.zero_le m) (fun _ => KeysOk.start _ _)
    (fun _ _ _ => trivial) fun _ op _ hk _ h => h.step (run.distinct op (mem_of_getElem? hk))

theorem released_of_discard {i : Nat} {t : Int} (ht : 0 < t)
    (hop : run.ops[i]? = some (.discard t)) : Released t (run.stateAt (i + 1)) := by
  have hstep : run.stateAt (i + 1) = ((run.stateAt i).step run.schema (.discard t)).1 :=
    Run.after_succ hop
  have hgo : (run.stateAt i).refuses (.discard t) = false := by
    simp [UniqueDb.refuses, UniqueOp.caller, UniqueOp.midStatement, ht]
  rw [hstep, UniqueDb.step, if_neg (by simp [hgo])]
  exact Released.discard _ t

/-- **UNIQUE keys exclude each other**, at every moment of every run. A key is claimed by exactly
the transaction that retains it, so no two transactions hold the same key; a current key of an
active transaction is claimed for its row, and that row's newest version carries it (or the row that
the statement under way is to write); a write or statement that fails changes no claim, no key and
no version; a discarded transaction claims nothing; and a statement that finds its keys free
succeeds. -/
theorem unique_claims_exclude (run : UniqueRun V) (m : Nat) :
    (∀ t k, k ∈ ((run.stateAt m).keys t).retained ↔
      ∃ row, (run.stateAt m).shared.lookup k = some ⟨t, row⟩) ∧
    (∀ t u k, k ∈ ((run.stateAt m).keys t).retained → k ∈ ((run.stateAt m).keys u).retained →
      t = u) ∧
    (∀ t k row, ((run.stateAt m).txns.stores t).terminal = false →
      ((run.stateAt m).keys t).current.lookup k = some row →
      (run.stateAt m).shared.lookup k = some ⟨t, row⟩ ∧
      Planned run.schema ((run.stateAt m).txns.stores t) ((run.stateAt m).statements t) row k) ∧
    (∀ op e, run.ops[m]? = some op → op.reserves = true →
      run.outcomeAt m = some (.result (.error e)) →
      SameKeys (run.stateAt m) (run.stateAt (m + 1))) ∧
    (∀ i t, i < m → 0 < t → run.ops[i]? = some (.discard t) → ∀ k owner,
      (run.stateAt m).shared.lookup k = some owner → owner.txnId ≠ t) ∧
    (∀ t kind rows now attempt, run.ops[m]? = some (.putBatch t kind rows now attempt) →
      FreeStatement run.schema (run.stateAt m) t kind rows attempt →
      run.outcomeAt m = some (.result (.ok ()))) := by
  have hok : (run.stateAt m).Ok run.schema := ok_at m
  refine ⟨fun t => (hok t).owned, fun t u k ht hu => ?_, fun t k row hact hk => ?_,
    fun op e hop hres hout => ?_, fun i t him ht hop k owner ho => ?_,
    fun t kind rows now attempt hop hfree => ?_⟩
  · obtain ⟨row, hrow⟩ := ((hok t).owned k).mp ht
    obtain ⟨row', hrow'⟩ := ((hok u).owned k).mp hu
    rw [hrow] at hrow'
    cases hrow'
    rfl
  · exact ⟨(hok t).current k row hk, (hok t).carried hact k row hk⟩
  · have hstep : run.stateAt (m + 1) = ((run.stateAt m).step run.schema op).1 := Run.after_succ hop
    rw [outcomeAt, Run.outcome_of_get hop] at hout
    rw [hstep]
    exact UniqueDb.step_error hres (some.inj hout)
  · -- a discarded transaction retains nothing
    have hreleased : Released t (run.stateAt m) :=
          Run.after_of_le him (released_of_discard ht hop) fun _ op hs => hs.step op
    rintro rfl
    have hmem := ((hok owner.txnId).owned k).mpr ⟨owner.rowId, ho⟩
    rw [hreleased.keys] at hmem
    simp [UniqueKeys.new] at hmem
  · have hgo : (run.stateAt m).refuses (.putBatch t kind rows now attempt) = false := by
      simp [UniqueDb.refuses, UniqueOp.caller, UniqueOp.midStatement, hfree.positive, hfree.idle]
    have hreads :
        (kind.hasOriginals && !rows.all fun p => (run.stateAt m).hasRead t p.1) = false := by
      cases horig : kind.hasOriginals with
      | false => rfl
      | true => simpa using fun row data hp => hfree.reads horig (row, data) hp
    have hres : ((run.stateAt m).putBatch run.schema t kind rows now attempt).2 = .ok () :=
      hok.putBatch_ok hfree
    rw [outcomeAt, Run.outcome_of_get hop]
    show some ((run.stateAt m).step run.schema (.putBatch t kind rows now attempt)).2 = _
    simp [UniqueDb.step, hgo, hreads, hres]

/-- Transaction `t` has a live version with key `k`, be it one that a rollback would bring back. -/
def Writes (run : UniqueRun V) (m : Nat) (t : Int) (k : UniqueClaimKey V) : Prop :=
  ∃ row v, ((run.stateAt m).txns.stores t).Holds row v ∧ v.1.isDeleted = false ∧
    Carries run.schema v.1.data k

/-- **No two transactions write one key**, at any moment of any run. -/
theorem one_writer_of_key {m : Nat} {t u : Int} {k : UniqueClaimKey V} (h : run.Writes m t k)
    (h' : run.Writes m u k) : t = u := by
  obtain ⟨row, v, hv, hlive, hk⟩ := h
  obtain ⟨row', v', hv', hlive', hk'⟩ := h'
  have hok : (run.stateAt m).Ok run.schema := ok_at m
  obtain ⟨r, hr⟩ := ((hok t).owned k).mp (((hok t).held row v hv hlive).mem hk)
  obtain ⟨r', hr'⟩ := ((hok u).owned k).mp (((hok u).held row' v' hv' hlive').mem hk')
  cases hr.symm.trans hr'
  rfl

/-! ## A run -/

/-- One UNIQUE index, over the first column. -/
def firstColumnUnique : UniqueSchema Nat where
  indexes := [⟨"ux_a", "ux_a", ["a"], fun row => .ok (some (row.take 1))⟩]
  isNull _ := false
  render values := toString values

/-- Transaction 1 inserts rows 1 and 2 with keys 10 and 20 and exchanges the keys in one statement.
Transaction 2 tries to take key 10, before and after transaction 1 is rolled back. -/
def swapKeys : UniqueRun Nat where
  schema := firstColumnUnique
  epoch := 1
  recovery := []
  contents := VersionStore.new
  ops :=
    let attempt := ⟨false, true, fun _ _ => .ok none⟩
    [.registry (.begin .readCommitted), .put 1 1 [10] false false 100 attempt,
      .put 1 2 [20] false false 110 attempt,
      .putBatch 1 .insertOrUpdate [(1, [20]), (2, [10])] 120 attempt, .writeNext 1 130,
      .writeNext 1 140, .registry (.begin .readCommitted), .put 2 3 [10] false false 150 attempt,
      .discard 1, .put 2 3 [10] false false 160 attempt]
  distinct op hop := by
    simp only [mem_cons, not_mem_nil, or_false] at hop
    rcases hop with rfl | rfl | rfl | rfl | rfl | rfl | rfl | rfl | rfl | rfl <;>
      simp [UniqueOp.Distinct]

theorem swapKeys_carries {data : List Nat} {k : UniqueClaimKey Nat} :
    Carries firstColumnUnique data k ↔ k = ⟨"ux_a", data.take 1⟩ := by
  simp [Carries, UniqueSchema.uniqueKeysForRow, UniqueSchema.keysIn, firstColumnUnique, Except.map]

theorem swapKeys_free : FreeStatement firstColumnUnique (swapKeys.stateAt 3) 1 .insertOrUpdate
    [(1, [20]), (2, [10])] ⟨false, true, fun _ _ => .ok none⟩ where
  positive := by decide
  idle := rfl
  active := rfl
  reads h := by cases h
  noWait := rfl
  keys _ p _ := ⟨[⟨"ux_a", p.2.take 1⟩], by
    simp [UniqueSchema.uniqueKeysForRow, UniqueSchema.keysIn, firstColumnUnique, Except.map]⟩
  noDuplicate r r' k hr hr' := by
    -- rows 1 and 2 are the only rows, and they take different keys
    have hfinal : ∀ x, FinalKey firstColumnUnique ((swapKeys.stateAt 3).txns.stores 1)
        [(1, some [20]), (2, some [10])] x k →
        (x = 1 ∧ k = ⟨"ux_a", [20]⟩) ∨ (x = 2 ∧ k = ⟨"ux_a", [10]⟩) := by
      rintro x (⟨data, hmem, hk⟩ | ⟨hno, v, hv, -⟩)
      · rw [swapKeys_carries] at hk
        simp only [mem_cons, not_mem_nil, or_false, Prod.mk.injEq, some.injEq] at hmem
        rcases hmem with ⟨rfl, rfl⟩ | ⟨rfl, rfl⟩
        exacts [.inl ⟨rfl, hk⟩, .inr ⟨rfl, hk⟩]
      · have hkeys : ((swapKeys.stateAt 3).txns.stores 1).localVersions.keys = [2, 1] := rfl
        obtain ⟨vs, hvs, -⟩ := TransactionVersionStore.holds_getLocalVersion hv
        have hx := AList.mem_keys.mp (Table.mem_of_lookup hvs)
        rw [hkeys] at hx
        simp at hx hno
        omega
    rcases hfinal r hr with ⟨rfl, rfl⟩ | ⟨rfl, rfl⟩ <;>
      rcases hfinal r' hr' with ⟨rfl, hk⟩ | ⟨rfl, hk⟩ <;> first | rfl | cases hk
  unclaimed r k hk owner ho := by
    obtain ⟨data, hmem, hk⟩ := hk
    rw [swapKeys_carries] at hk
    subst hk
    have hmem : (r, some data) ∈ [((1 : Int), some [20]), (2, some [10])] := hmem
    simp only [mem_cons, not_mem_nil, or_false, Prod.mk.injEq, some.injEq] at hmem
    rcases hmem with ⟨rfl, rfl⟩ | ⟨rfl, rfl⟩
    · cases ho
      rfl
    · cases ho
      rfl

/-- The exchange succeeds; transaction 2 has to wait for key 10 until transaction 1 is gone. -/
theorem unique_claims_exclude_swapKeys :
    swapKeys.outcomeAt 3 = some (.result (.ok ())) ∧
      LocalKey firstColumnUnique ((swapKeys.stateAt 6).txns.stores 1) 2 ⟨"ux_a", [10]⟩ ∧
      swapKeys.outcomeAt 7 = some (.result (.error (.rowLockTimeout 2))) ∧
      swapKeys.outcomeAt 9 = some (.result (.ok ())) := by
  refine ⟨(unique_claims_exclude swapKeys 3).2.2.2.2.2 1 .insertOrUpdate [(1, [20]), (2, [10])] 120
    ⟨false, true, fun _ _ => .ok none⟩ rfl swapKeys_free,
    ((unique_claims_exclude swapKeys 6).2.2.1 1 ⟨"ux_a", [10]⟩ 2 rfl ?_).2, ?_, ?_⟩
  · decide
  · rfl
  · rfl

theorem one_writer_of_key_swapKeys : swapKeys.Writes 6 1 ⟨"ux_a", [10]⟩ ∧ (1 : Int) = 1 := by
  have h : swapKeys.Writes 6 1 ⟨"ux_a", [10]⟩ :=
    ⟨2, _, ⟨_, rfl, .tail _ (.head _)⟩, rfl, swapKeys_carries.mpr rfl⟩
  exact ⟨h, one_writer_of_key h h⟩

end UniqueRun

end RadixDb

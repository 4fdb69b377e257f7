import RadixDb.Registry.Maintenance
import RadixDb.Registry.Visibility

/-!
# What a registry step can do, and what it keeps

`Change r e r'` lists, once, every way a call of effect `e` takes the registry from `r` to `r'`:
nothing but the counters and switches moves, a transaction enters the map, is marked as
committing, ended (by a commit, which leaves nothing in the map, or by an abort, which leaves a
marker), re-marked as aborted, or garbage is collected. Every property of runs below is a case
analysis over these six, never over the calls.

`Ok` is the invariant. Its two load-bearing fields are `override_live`, by which the isolation
overrides are exactly the live transactions, and `boundary`, by which **a snapshot's boundary
excludes everything the map still tracks from before the snapshot**: whatever is in the map now
and is not the viewer itself was either in the map when the viewer began, or has a larger id.
-/

namespace RadixDb

open Table Option
namespace TransactionRegistry

/-- `t` is active or committing. -/
def Live (r : TransactionRegistry) (t : Int) : Prop :=
  ∃ st, r.transactions.lookup t = some st ∧ st.isActiveOrCommitting = true

def isLive (r : TransactionRegistry) (t : Int) : Bool :=
  (r.transactions.lookup t).any (·.isActiveOrCommitting)

variable {r : TransactionRegistry} {t : Int}

theorem isLive_iff : r.isLive t = true ↔ r.Live t := by
  simp [isLive, Live, any_eq_true]

/-- `t` was handed out and has left the map, which the code reads as "committed". -/
def Gone (r : TransactionRegistry) (t : Int) : Prop :=
  0 < t ∧ t ≤ r.nextTxnId ∧ t ∉ r.transactions

theorem Live.mem (h : r.Live t) : t ∈ r.transactions := by
  obtain ⟨st, hst, _⟩ := h
  exact mem_of_lookup hst

theorem isCommitted_iff : r.isCommitted t = true ↔ r.Gone t := by
  unfold isCommitted Gone
  split <;> simp_all

/-- The sequence counter stands still or takes the next number of the packed domain. -/
def Advance (r : TransactionRegistry) (n : Int) : Prop :=
  n = r.nextSequence ∨ (n = r.nextSequence + 1 ∧ n ≤ seqMask)

theorem Advance.le {n : Int} (h : r.Advance n) : r.nextSequence ≤ n := by
  rcases h with rfl | ⟨rfl, _⟩ <;> omega

theorem advance_of_nextSequenceIn {n : Int} (h : r.nextSequenceIn = some n) : r.Advance n :=
  .inr (nextSequenceIn_eq_some.mp h)

/-- What is worth knowing about a call besides the registry it leaves: the transaction it ended, or
the garbage collection it was. -/
inductive Effect where
  | plain
  | ends (txnId : Int)
  | collects (maxAge : Nat) (now : Int)

/-- Everything one call can do to the registry. -/
inductive Change (r : TransactionRegistry) : Effect → TransactionRegistry → Prop where
  | quiet (n : Int) (level : IsolationLevel) (accepting : Bool) (hn : r.Advance n) :
      Change r .plain { r with
        nextSequence := n, globalIsolationLevel := level, accepting := accepting }
  | enroll (level : IsolationLevel) (hid : r.nextTxnId + 1 < I64.maxValue)
      (hseq : r.nextSequence + 1 ≤ seqMask) :
      Change r .plain (r.enroll level (r.nextTxnId + 1) (r.nextSequence + 1))
  | mark (t c : Int) (st : TxnState) (hst : r.transactions.lookup t = some st)
      (hlive : st.isActiveOrCommitting = true) (hc : r.Advance c) :
      Change r .plain { r with
        nextSequence := c, transactions := r.transactions.insert t (st.setCommitting c) }
  | finish (t n : Int) (left : Option TxnState) (txns : Table Int TxnState)
      (seqs times : Table Int Int) (count : Nat) (hlive : r.Live t) (hn : r.Advance n)
      (hleft : ∀ st, left = some st → st.isActiveOrCommitting = false)
      (htxns : ∀ x, txns.lookup x = if x = t then left else r.transactions.lookup x) :
      Change r (.ends t) (removeTransactionIsolationLevel { r with
        nextSequence := n, transactions := txns, snapshotSeqs := seqs, terminalTimes := times,
        activeTxnCount := count } t)
  | remark (t : Int) (st : TxnState) (hst : r.transactions.lookup t = some st)
      (hdead : st.isActiveOrCommitting = false) :
      Change r .plain { r with transactions := r.transactions.insert t TxnState.newAborted }
  | collect (maxAge : Nat) (now : Int) :
      Change r (.collects maxAge now) (r.runGcWithRetention maxAge now).1

section

variable (r : TransactionRegistry)

theorem Change.refl : Change r .plain r :=
  .quiet r.nextSequence r.globalIsolationLevel r.accepting (.inl rfl)

/-! ## Each call is a change -/

variable (level : IsolationLevel)

theorem begin_cases :
    r.beginTransactionWithIsolation level = (r, (invalidTransactionId, 0)) ∨
      r.nextTxnId + 1 < I64.maxValue ∧ r.nextSequence + 1 ≤ seqMask ∧
        r.beginTransactionWithIsolation level =
          (r.enroll level (r.nextTxnId + 1) (r.nextSequence + 1),
            (r.nextTxnId + 1, r.nextSequence + 1)) := by
  unfold beginTransactionWithIsolation
  split
  · exact .inl rfl
  · split
    · rename_i hid
      cases hn : r.nextSequenceIn with
      | none => exact .inl rfl
      | some n =>
        obtain ⟨rfl, hmask⟩ := nextSequenceIn_eq_some.mp hn
        exact .inr ⟨hid, hmask, rfl⟩
    · exact .inl rfl

theorem change_begin : Change r .plain (r.beginTransactionWithIsolation level).1 := by
  rcases begin_cases r level with h | ⟨hid, hmask, h⟩
  · rw [h]
    exact .refl r
  · rw [h]
    exact .enroll level hid hmask

theorem startCommit_cases (t : Int) :
    (∃ e, r.startCommit t = (r, .error e)) ∨ ∃ st c, r.transactions.lookup t = some st ∧
      st.status = .active ∧ r.nextSequenceIn = some c ∧
      r.startCommit t = ({ r with
        nextSequence := c
        transactions := r.transactions.insert t (st.setCommitting c) }, .ok c) := by
  unfold startCommit
  cases hst : r.transactions.lookup t with
  | none => exact .inl ⟨_, rfl⟩
  | some st =>
    simp only
    split
    · exact .inl ⟨_, rfl⟩
    · rename_i hact
      cases hn : r.nextSequenceIn with
      | none => exact .inl ⟨_, rfl⟩
      | some c => exact .inr ⟨st, c, rfl, not_not.mp hact, rfl, rfl⟩

theorem change_startCommit (t : Int) : Change r .plain (r.startCommit t).1 := by
  rcases startCommit_cases r t with ⟨e, h⟩ | ⟨st, c, hst, hs, hn, h⟩
  · rw [h]
    exact .refl r
  · rw [h]
    have hlive := TxnState.isActiveOrCommitting_of_status (s := st) (by simp [hs])
    exact .mark t c st hst hlive (advance_of_nextSequenceIn hn)

end

/-- A completion of `t` ends it if the call succeeded. -/
def endsIfOk {α : Type} (t : Int) : Except RegistryError α → Effect
  | .ok _ => .ends t
  | .error _ => .plain

/-- A completion fails and does nothing, or takes its transaction out of the map, after it has
reserved a sequence for the publication if it was asked to. -/
theorem completeCommitInner_cases (r : TransactionRegistry) (t : Int) (reserve : Bool) (now : Int) :
    (∃ e, r.completeCommitInner t reserve now = (r, .error e)) ∨ ∃ st n q,
      r.transactions.lookup t = some st ∧ r.Live t ∧ r.Advance n ∧
      (reserve = true → n = r.nextSequence + 1 ∧ n ≤ seqMask ∧ q = n) ∧
      r.completeCommitInner t reserve now =
        (publishCommit { r with nextSequence := n } t st.commitSeq now, .ok q) := by
  unfold completeCommitInner
  cases hst : r.transactions.lookup t with
  | none => exact .inl ⟨_, rfl⟩
  | some st =>
    simp only
    split
    · exact .inl ⟨_, rfl⟩
    · rename_i h
      have hs : st.status = .committing := not_not.mp fun hne => h (.inl hne)
      have hlive : r.Live t :=
        ⟨st, hst, TxnState.isActiveOrCommitting_of_status (by simp [hs])⟩
      split
      · cases hn : r.nextSequenceIn with
        | none => exact .inl ⟨_, rfl⟩
        | some n =>
          obtain ⟨hn', hmask⟩ := nextSequenceIn_eq_some.mp hn
          exact .inr ⟨st, n, n, rfl, hlive, .inr ⟨hn', hmask⟩, fun _ => ⟨hn', hmask, rfl⟩, rfl⟩
      · rename_i hres
        exact .inr ⟨st, _, _, rfl, hlive, .inl rfl, fun h => absurd h hres, rfl⟩

theorem change_completeCommitInner (r : TransactionRegistry) (t : Int) (reserve : Bool)
    (now : Int) :
    Change r (endsIfOk t (r.completeCommitInner t reserve now).2)
      (r.completeCommitInner t reserve now).1 := by
  rcases completeCommitInner_cases r t reserve now with ⟨e, h⟩ | ⟨st, n, q, -, hlive, hn, -, h⟩
  · rw [h]
    exact .refl r
  · rw [h]
    exact .finish t n none _ _ _ _ hlive hn (by simp) fun x => lookup_erase_if _ t x

theorem change_abortTransaction (r : TransactionRegistry) (t now : Int) :
    Change r (if r.isLive t then .ends t else .plain) (r.abortTransaction t now) := by
  unfold abortTransaction isLive
  cases hst : r.transactions.lookup t with
  | none => exact .refl r
  | some st =>
    simp only [any_some]
    split
    · rename_i hlive
      exact .finish t r.nextSequence (some TxnState.newAborted) _ _ _ _ ⟨st, hst, hlive⟩
        (.inl rfl) (by simp) fun x => lookup_insert_if _ t x _
    · rename_i hdead
      exact .remark t st hst (by simpa using hdead)

theorem change_reserveVisibilitySequence (r : TransactionRegistry) :
    Change r .plain r.reserveVisibilitySequence.1 := by
  unfold reserveVisibilitySequence
  cases hn : r.nextSequenceIn with
  | none => exact .refl r
  | some n => exact .quiet n _ _ (advance_of_nextSequenceIn hn)

/-! ## What no call undoes -/

variable {r' : TransactionRegistry} {e : Effect}

theorem Change.nextTxnId_le (h : Change r e r') : r.nextTxnId ≤ r'.nextTxnId := by
  cases h with
  | enroll level _ _ => show r.nextTxnId ≤ r.nextTxnId + 1; omega
  | _ => exact le_rfl

theorem Change.nextSequence_le (h : Change r e r') : r.nextSequence ≤ r'.nextSequence := by
  cases h with
  | quiet _ _ _ hn | mark _ _ _ _ _ hn | finish _ _ _ _ _ _ _ _ hn _ _ => exact hn.le
  | enroll level _ _ => show r.nextSequence ≤ r.nextSequence + 1; omega
  | _ => exact le_rfl

/-- How one call can move one entry of the map. -/
inductive EntryMove (r : TransactionRegistry) (x : Int) : Option TxnState → Prop where
  | same : EntryMove r x (r.transactions.lookup x)
  | admitted (b : Int) (hx : x = r.nextTxnId + 1) : EntryMove r x (some (TxnState.newActive b))
  | rewritten (st st' : TxnState) (hst : r.transactions.lookup x = some st)
      (hsame : st'.isActiveOrCommitting = st.isActiveOrCommitting) : EntryMove r x (some st')
  | finished (left : Option TxnState) (hlive : r.Live x)
      (hleft : ∀ st, left = some st → st.isActiveOrCommitting = false) : EntryMove r x left
  | collected (st : TxnState) (hst : r.transactions.lookup x = some st)
      (hdead : st.isActiveOrCommitting = false) : EntryMove r x none

section

variable (h : Change r e r')

include h

theorem Change.entry (x : Int) : EntryMove r x (r'.transactions.lookup x) := by
  cases h with
  | quiet _ _ _ _ => exact .same
  | enroll level _ _ =>
    show EntryMove r x ((r.transactions.insert _ _).lookup x)
    rw [lookup_insert_if]
    split
    · exact .admitted _ ‹_›
    · exact .same
  | mark t c st hst _ _ =>
    rw [lookup_insert_if]
    split
    · rename_i hx
      exact .rewritten st _ (hx ▸ hst) rfl
    · exact .same
  | finish t n left txns seqs times count hlive _ hleft htxns =>
    show EntryMove r x (txns.lookup x)
    rw [htxns]
    split
    · rename_i hx
      exact .finished left (hx ▸ hlive) hleft
    · exact .same
  | remark t st hst hdead =>
    rw [lookup_insert_if]
    split
    · rename_i hx
      exact .rewritten st _ (hx ▸ hst) hdead.symm
    · exact .same
  | collect maxAge now =>
    show EntryMove r x ((r.transactions.retain _).lookup x)
    rw [lookup_retain]
    cases hst : r.transactions.lookup x with
    | none =>
      rw [filter_none, ← hst]
      exact .same
    | some st =>
      rw [filter_some]
      split
      · rw [← hst]
        exact .same
      · rename_i hdrop
        have hab : st.isAborted = true := by
          simp only [gcDropsMarker, Bool.not_eq_true', Bool.not_eq_false, Bool.and_eq_true] at hdrop
          exact hdrop.1.1.2
        exact .collected st hst (by simpa [TxnState.isAborted_eq_not] using hab)

theorem Change.entry_some {x : Int} {st' : TxnState} (hst' : r'.transactions.lookup x = some st') :
    x ∈ r.transactions ∧ (st'.isActiveOrCommitting = true → r.Live x) ∨ x = r.nextTxnId + 1 := by
  have hm := h.entry x
  rw [hst'] at hm
  generalize ho : some st' = o at hm
  cases hm with
  | same => exact .inl ⟨mem_of_lookup ho.symm, fun hl => ⟨st', ho.symm, hl⟩⟩
  | admitted b hx => exact .inr hx
  | rewritten st st'' hst hsame =>
    cases ho
    exact .inl ⟨mem_of_lookup hst, fun hl => ⟨st, hst, hsame ▸ hl⟩⟩
  | finished left hlive _ => exact .inl ⟨hlive.mem, fun _ => hlive⟩
  | collected st _ _ => cases ho

theorem Change.live_of_live {x : Int} (hx : r'.Live x) : r.Live x ∨ x = r.nextTxnId + 1 := by
  obtain ⟨st', hst', hl⟩ := hx
  exact (h.entry_some hst').imp_left fun hm => hm.2 hl

/-- **A committed transaction stays committed.** -/
theorem Change.gone (ht : r.Gone t) : r'.Gone t := by
  obtain ⟨hpos, hle, hnot⟩ := ht
  refine ⟨hpos, hle.trans h.nextTxnId_le, fun hmem => ?_⟩
  obtain ⟨st, hst⟩ := mem_iff_lookup.mp hmem
  rcases h.entry_some hst with ⟨hm, -⟩ | heq
  · exact hnot hm
  · omega

/-- Nothing but its own end takes a live transaction away. -/
theorem Change.live (ht : r.Live t) (hle : t ≤ r.nextTxnId) (he : e ≠ .ends t) : r'.Live t := by
  obtain ⟨st, hst, hl⟩ := ht
  cases h with
  | quiet _ _ _ _ => exact ⟨st, hst, hl⟩
  | enroll level _ _ =>
    refine ⟨st, ?_, hl⟩
    show (r.transactions.insert _ _).lookup t = some st
    rw [lookup_insert_if, if_neg (by omega), hst]
  | mark x c st' hst' _ _ =>
    by_cases hx : t = x
    · subst hx
      rw [hst] at hst'
      cases hst'
      exact ⟨st.setCommitting c, by simp, hl⟩
    · exact ⟨st, by simpa [hx] using hst, hl⟩
  | finish x n left txns seqs times count _ _ _ htxns =>
    refine ⟨st, ?_, hl⟩
    show txns.lookup t = some st
    rw [htxns, if_neg (fun hx => he (by rw [hx])), hst]
  | remark x st' hst' hdead =>
    refine ⟨st, ?_, hl⟩
    rw [lookup_insert_if, if_neg, hst]
    rintro rfl
    rw [hst] at hst'
    cases hst'
    exact absurd hl (by simp [hdead])
  | collect maxAge now =>
    refine ⟨st, ?_, hl⟩
    show (r.transactions.retain _).lookup t = some st
    rw [lookup_retain, hst]
    simp [gcDropsMarker, TxnState.isAborted_eq_not, hl]

theorem Change.ended (ht : t ≤ r.nextTxnId ∧ ¬ r.Live t) : t ≤ r'.nextTxnId ∧ ¬ r'.Live t := by
  refine ⟨ht.1.trans h.nextTxnId_le, fun hlive => ?_⟩
  rcases h.live_of_live hlive with hl | heq
  · exact ht.2 hl
  · omega

end

/-- A transaction that is tracked but not live: its marker is in the map. -/
def Marked (r : TransactionRegistry) (t : Int) : Prop := t ∈ r.transactions ∧ ¬ r.Live t

/-- Nothing but a collection that drops it removes a marker. -/
theorem Change.marked (h : Change r e r') (ht : r.Marked t) (hle : t ≤ r.nextTxnId) :
    r'.Marked t ∨ ∃ maxAge now st, e = .collects maxAge now ∧
      r.transactions.lookup t = some st ∧ r.gcDropsMarker maxAge now t st = true := by
  obtain ⟨hmem, hdead⟩ := ht
  obtain ⟨st, hst⟩ := mem_iff_lookup.mp hmem
  have hdead' := (h.ended ⟨hle, hdead⟩).2
  cases h with
  | quiet _ _ _ _ => exact .inl ⟨hmem, hdead'⟩
  | enroll _ _ _ | mark _ _ _ _ _ _ | remark _ _ _ _ =>
    exact .inl ⟨(AList.mem_insert _).mpr (.inr hmem), hdead'⟩
  | finish x n left txns seqs times count hlive _ _ htxns =>
    refine .inl ⟨mem_of_lookup (v := st) ?_, hdead'⟩
    show txns.lookup t = some st
    rw [htxns, if_neg (fun hx : t = x => hdead (hx ▸ hlive)), hst]
  | collect maxAge now =>
    by_cases hdrop : r.gcDropsMarker maxAge now t st = true
    · exact .inr ⟨maxAge, now, st, rfl, hst, hdrop⟩
    · exact .inl ⟨mem_retain.mpr ⟨st, hst, by simpa using hdrop⟩, hdead'⟩

/-! ## The invariant -/

/-- What the boundary `b` of a live snapshot `s` promises. -/
structure BoundaryOk (r : TransactionRegistry) (s : Int) (b : SnapshotBoundary) : Prop where
  maxTxnId : b.maxTxnId = s
  flag : r.activeFlags[b.active]? = some true
  hides : ∀ t ∈ r.transactions, t ≠ s → t ∈ b.excluded ∨ s < t
  excluded_lt : ∀ t ∈ b.excluded, t < s

structure Ok (r : TransactionRegistry) : Prop where
  tracked : ∀ t ∈ r.transactions, 0 < t ∧ t ≤ r.nextTxnId
  nextTxnId_nonneg : 0 ≤ r.nextTxnId
  sequence : 0 ≤ r.nextSequence ∧ r.nextSequence ≤ seqMask
  live_lt : ∀ t, r.Live t → t < I64.maxValue
  override_live : ∀ t, t ∈ r.isolationOverrides ↔ r.Live t
  override_count : r.overrideCount = r.isolationOverrides.keys.length
  snapshot_override : ∀ s,
    s ∈ r.snapshotExclusions ↔ r.isolationOverrides.lookup s = some .snapshotIsolation
  boundary : ∀ s b, r.snapshotExclusions.lookup s = some b → r.BoundaryOk s b
  flag_inj : ∀ s s' b b', r.snapshotExclusions.lookup s = some b →
    r.snapshotExclusions.lookup s' = some b' → b.active = b'.active → s = s'

namespace Ok

variable {r : TransactionRegistry} {s : Int}

theorem live_of_snapshot (h : r.Ok) (hs : s ∈ r.snapshotExclusions) : r.Live s :=
  (h.override_live s).mp (mem_of_lookup ((h.snapshot_override s).mp hs))

theorem snapshot_le (h : r.Ok) (hs : s ∈ r.snapshotExclusions) : s ≤ r.nextTxnId :=
  (h.tracked s (h.live_of_snapshot hs).mem).2

theorem not_mem_next (h : r.Ok) : r.nextTxnId + 1 ∉ r.transactions := fun hm => by
  have := (h.tracked _ hm).2
  omega

theorem not_override_next (h : r.Ok) : r.nextTxnId + 1 ∉ r.isolationOverrides := fun hm =>
  h.not_mem_next ((h.override_live _).mp hm).mem

theorem not_snapshot_next (h : r.Ok) : r.nextTxnId + 1 ∉ r.snapshotExclusions := fun hm =>
  h.not_mem_next (h.live_of_snapshot hm).mem

theorem overrideCount_pos (h : r.Ok) {t : Int} (ht : t ∈ r.isolationOverrides) :
    0 < r.overrideCount := by
  rw [h.override_count]
  exact List.length_pos_of_mem (AList.mem_keys.mp ht)

variable {r' : TransactionRegistry}

/-- A change that leaves overrides, boundaries and the set of live transactions alone, and puts no
new id into the map, keeps the invariant. -/
theorem of_same (h : r.Ok) (hmem : ∀ t ∈ r'.transactions, t ∈ r.transactions)
    (hlive : ∀ t, r'.Live t ↔ r.Live t) (hnext : r'.nextTxnId = r.nextTxnId)
    (hseq : 0 ≤ r'.nextSequence ∧ r'.nextSequence ≤ seqMask)
    (hov : r'.isolationOverrides = r.isolationOverrides)
    (hcount : r'.overrideCount = r.overrideCount)
    (hex : r'.snapshotExclusions = r.snapshotExclusions) (hflags : r'.activeFlags = r.activeFlags) :
    r'.Ok where
  tracked t ht := hnext ▸ h.tracked t (hmem t ht)
  nextTxnId_nonneg := hnext ▸ h.nextTxnId_nonneg
  sequence := hseq
  live_lt t ht := h.live_lt t ((hlive t).mp ht)
  override_live t := by rw [hov, hlive]; exact h.override_live t
  override_count := by rw [hcount, hov]; exact h.override_count
  snapshot_override s := by rw [hex, hov]; exact h.snapshot_override s
  boundary s b hb := by
    rw [hex] at hb
    have hbo := h.boundary s b hb
    exact ⟨hbo.maxTxnId, hflags ▸ hbo.flag, fun t ht => hbo.hides t (hmem t ht), hbo.excluded_lt⟩
  flag_inj s s' b b' hb hb' := by
    rw [hex] at hb hb'
    exact h.flag_inj s s' b b' hb hb'

theorem advance (h : r.Ok) {n : Int} (hn : r.Advance n) : 0 ≤ n ∧ n ≤ seqMask := by
  have := h.sequence
  rcases hn with rfl | ⟨rfl, hmask⟩
  · exact this
  · exact ⟨by omega, hmask⟩

/-- Overwriting a tracked entry by one of the same kind changes neither the ids in the map nor which
of them are live. -/
theorem rewrite_entry {t : Int} {st st' : TxnState} (hst : r.transactions.lookup t = some st)
    (hsame : st'.isActiveOrCommitting = st.isActiveOrCommitting) (r' : TransactionRegistry)
    (hr' : r'.transactions = r.transactions.insert t st') :
    (∀ x ∈ r'.transactions, x ∈ r.transactions) ∧ ∀ x, r'.Live x ↔ r.Live x := by
  refine ⟨fun x hx => ?_, fun x => ?_⟩
  · rw [hr', AList.mem_insert] at hx
    rcases hx with rfl | hx
    · exact mem_of_lookup hst
    · exact hx
  · simp only [Live, hr', lookup_insert_if]
    by_cases hx : x = t
    · subst hx
      simp [hst, hsame]
    · simp [hx]

/-- Garbage collection drops no live entry, hence no override either. -/
theorem collect_live (maxAge : Nat) (now : Int) (t : Int) :
    (r.runGcWithRetention maxAge now).1.Live t ↔ r.Live t := by
  simp only [Live, runGcWithRetention, lookup_retain, filter_eq_some_iff]
  refine ⟨fun ⟨st, ⟨hst, _⟩, hl⟩ => ⟨st, hst, hl⟩, fun ⟨st, hst, hl⟩ => ⟨st, ⟨hst, ?_⟩, hl⟩⟩
  simp [gcDropsMarker, TxnState.isAborted_eq_not, hl]

theorem collect_overrides (h : r.Ok) (maxAge : Nat) (now : Int) :
    (r.runGcWithRetention maxAge now).1.isolationOverrides = r.isolationOverrides := by
  show (if 0 < r.overrideCount then _ else _) = _
  split
  · refine retain_eq_self fun k level hk => ?_
    -- an override belongs to a live transaction, which the collection keeps
    obtain ⟨st, hst, hl⟩ :=
      (collect_live maxAge now k).mpr ((h.override_live k).mp (mem_of_lookup hk))
    have hst' : (r.transactions.retain fun id state =>
        !r.gcDropsMarker maxAge now id state).lookup k = some st := hst
    simp [overrideInvalid, hst', TxnState.isAborted_eq_not, hl]
  · rfl

theorem collect (h : r.Ok) (maxAge : Nat) (now : Int) : (r.runGcWithRetention maxAge now).1.Ok := by
  have hov := h.collect_overrides maxAge now
  refine h.of_same (fun t ht => ?_) (collect_live maxAge now) rfl h.sequence hov ?_ rfl rfl
  · obtain ⟨st, hst, _⟩ := mem_retain.mp ht
    exact mem_of_lookup hst
  · -- no override was removed, so the count stands
    have hlen : (r.runGcWithRetention maxAge now).1.overrideCount =
        r.overrideCount - (r.isolationOverrides.keys.length -
          (r.runGcWithRetention maxAge now).1.isolationOverrides.keys.length) := rfl
    rw [hlen, hov, Nat.sub_self, Nat.sub_zero]

theorem enroll_live (h : r.Ok) (level : IsolationLevel) (t : Int) :
    (r.enroll level (r.nextTxnId + 1) (r.nextSequence + 1)).Live t ↔
      t = r.nextTxnId + 1 ∨ r.Live t := by
  have hb : (TxnState.newActive (r.nextSequence + 1)).isActiveOrCommitting = true :=
    TxnState.isActiveOrCommitting_newActive (by have := h.sequence; omega)
  simp only [Live, enroll, lookup_insert_if]
  by_cases ht : t = r.nextTxnId + 1
  · simp [ht, hb]
  · simp [ht]

variable {b : SnapshotBoundary} {level : IsolationLevel}

/-- The boundaries after an admission: the old ones, and the new snapshot's. -/
theorem enroll_lookup {t q : Int} (hb : (r.enroll level t q).snapshotExclusions.lookup s = some b) :
    (s = t ∧ level = .snapshotIsolation ∧ b = r.newBoundary t) ∨
      r.snapshotExclusions.lookup s = some b := by
  simp only [enroll] at hb
  split at hb
  · rw [lookup_insert_if] at hb
    split at hb
    · exact .inl ⟨‹_›, ‹_›, (some.inj hb).symm⟩
    · exact .inr hb
  · exact .inr hb

/-- A flag that is set stays set when another transaction is admitted. -/
theorem enroll_flag {i : Nat} {t q : Int} (hi : r.activeFlags[i]? = some true) :
    (r.enroll level t q).activeFlags[i]? = some true := by
  simp only [enroll]
  split
  · rwa [List.getElem?_append_left (List.getElem?_eq_some_iff.mp hi).1]
  · exact hi

theorem enroll_boundary (h : r.Ok) (level : IsolationLevel)
    (hb : (r.enroll level (r.nextTxnId + 1) (r.nextSequence + 1)).snapshotExclusions.lookup s =
      some b) : (r.enroll level (r.nextTxnId + 1) (r.nextSequence + 1)).BoundaryOk s b := by
  rcases enroll_lookup hb with ⟨rfl, rfl, rfl⟩ | hold
  · -- the new boundary lists every id the map tracked
    refine ⟨rfl, ?_, fun t ht hne => .inl ?_, fun t ht => ?_⟩
    · simp [enroll, newBoundary]
    · rcases (AList.mem_insert _).mp ht with heq | hm
      · exact absurd heq hne
      · exact mem_sortedKeys.mpr hm
    · have := (h.tracked t (mem_sortedKeys.mp ht)).2
      omega
  · have hbo := h.boundary s b hold
    refine ⟨hbo.maxTxnId, enroll_flag hbo.flag, fun t ht hne => ?_, hbo.excluded_lt⟩
    rcases (AList.mem_insert _).mp ht with rfl | hm
    · have := h.snapshot_le (mem_of_lookup hold)
      exact .inr (by omega)
    · exact hbo.hides t hm hne

theorem enroll (h : r.Ok) (level : IsolationLevel) (hid : r.nextTxnId + 1 < I64.maxValue)
    (hseq : r.nextSequence + 1 ≤ seqMask) :
    (r.enroll level (r.nextTxnId + 1) (r.nextSequence + 1)).Ok where
  tracked t ht := by
    show 0 < t ∧ t ≤ r.nextTxnId + 1
    have := h.nextTxnId_nonneg
    rcases (AList.mem_insert _).mp ht with rfl | hm
    · omega
    · have := h.tracked t hm
      omega
  nextTxnId_nonneg := by
    show 0 ≤ r.nextTxnId + 1
    have := h.nextTxnId_nonneg
    omega
  sequence := by
    show 0 ≤ r.nextSequence + 1 ∧ r.nextSequence + 1 ≤ seqMask
    have := h.sequence
    omega
  live_lt t ht := by
    rcases (h.enroll_live level t).mp ht with rfl | hl
    · exact hid
    · exact h.live_lt t hl
  override_live t := by
    rw [h.enroll_live level]
    exact (AList.mem_insert _).trans (or_congr_right (h.override_live t))
  override_count := by
    show r.overrideCount + 1 = (r.isolationOverrides.insert _ _).keys.length
    rw [length_keys_insert h.not_override_next, h.override_count]
  snapshot_override s := by
    have hs := h.snapshot_override s
    have hnot := h.not_snapshot_next
    simp only [TransactionRegistry.enroll, lookup_insert_if]
    by_cases hsn : s = r.nextTxnId + 1
    · subst hsn
      by_cases hl : level = .snapshotIsolation <;> simp [hl, hnot]
    · by_cases hl : level = .snapshotIsolation <;> simp [hl, hsn, hs]
  boundary s b hb := h.enroll_boundary level hb
  flag_inj s s' b b' hb hb' heq := by
    -- the new boundary's flag is a fresh cell, past every old one
    have hfresh : ∀ {x c}, r.snapshotExclusions.lookup x = some c →
        c.active ≠ r.activeFlags.length := fun hc he => by
      have := (List.getElem?_eq_some_iff.mp (h.boundary _ _ hc).flag).1
      omega
    rcases enroll_lookup hb with ⟨hs, _, rfl⟩ | hold
    · rcases enroll_lookup hb' with ⟨hs', _, rfl⟩ | hold'
      · rw [hs, hs']
      · exact absurd heq.symm (hfresh hold')
    · rcases enroll_lookup hb' with ⟨hs', _, rfl⟩ | hold'
      · exact absurd heq (hfresh hold)
      · exact h.flag_inj s s' b b' hold hold' heq

section

variable {t n : Int} {left : Option TxnState} {txns : Table Int TxnState}
  {seqs times : Table Int Int} {count : Nat}

/-- The registry after `t` ended, leaving `txns` as the map. -/
private abbrev finished (r : TransactionRegistry) (t n : Int) (txns : Table Int TxnState)
    (seqs times : Table Int Int) (count : Nat) : TransactionRegistry :=
  removeTransactionIsolationLevel { r with
    nextSequence := n, transactions := txns, snapshotSeqs := seqs, terminalTimes := times,
    activeTxnCount := count } t

theorem finish_lookup {s : Int}
    (hb : (finished r t n txns seqs times count).snapshotExclusions.lookup s = some b) :
    s ≠ t ∧ r.snapshotExclusions.lookup s = some b := by
  have hb' : (r.snapshotExclusions.erase t).lookup s = some b := hb
  rw [lookup_erase_if] at hb'
  split at hb'
  · cases hb'
  · exact ⟨‹_›, hb'⟩

/-- Ending `t` clears no other snapshot's flag. -/
theorem finish_flag (h : r.Ok) {s : Int} (hne : s ≠ t)
    (hb : r.snapshotExclusions.lookup s = some b) :
    (finished r t n txns seqs times count).activeFlags[b.active]? = some true := by
  have hflag := (h.boundary s b hb).flag
  simp only [removeTransactionIsolationLevel]
  cases hbt : r.snapshotExclusions.lookup t with
  | none => exact hflag
  | some bt =>
    have hcell : bt.active ≠ b.active := fun he => hne (h.flag_inj s t b bt hb hbt he.symm)
    rwa [List.getElem?_set_ne hcell]

variable (hleft : ∀ st, left = some st → st.isActiveOrCommitting = false)
  (htxns : ∀ x, txns.lookup x = if x = t then left else r.transactions.lookup x)

include htxns

theorem finish_mem (hlive : r.Live t) {x : Int} (hx : x ∈ txns) : x ∈ r.transactions := by
  obtain ⟨st, hst⟩ := mem_iff_lookup.mp hx
  rw [htxns] at hst
  split at hst
  · rename_i heq
    exact heq ▸ hlive.mem
  · exact mem_of_lookup hst

include hleft

theorem finish_live (x : Int) :
    (finished r t n txns seqs times count).Live x ↔ x ≠ t ∧ r.Live x := by
  simp only [Live, removeTransactionIsolationLevel, htxns]
  by_cases hx : x = t
  · subst hx
    simp only [if_true, ne_eq, not_true, false_and, iff_false, not_exists, not_and]
    exact fun st hst => by simp [hleft st hst]
  · simp [hx]

theorem finish (h : r.Ok) (hlive : r.Live t) (hn : r.Advance n) :
    (finished r t n txns seqs times count).Ok where
  tracked x hx := h.tracked x (finish_mem htxns hlive hx)
  nextTxnId_nonneg := h.nextTxnId_nonneg
  sequence := h.advance hn
  live_lt x hx := h.live_lt x ((finish_live hleft htxns x).mp hx).2
  override_live x := by
    rw [finish_live hleft htxns]
    exact AList.mem_erase.trans (and_congr_right fun _ => h.override_live x)
  override_count := by
    have ht : t ∈ r.isolationOverrides := (h.override_live t).mpr hlive
    have hlen := length_keys_erase ht
    show (if t ∈ r.isolationOverrides then r.overrideCount - 1 else r.overrideCount) =
      (r.isolationOverrides.erase t).keys.length
    rw [if_pos ht, h.override_count]
    omega
  snapshot_override s := by
    show s ∈ r.snapshotExclusions.erase t ↔ (r.isolationOverrides.erase t).lookup s = _
    rw [AList.mem_erase, lookup_erase_if, h.snapshot_override s]
    by_cases hs : s = t <;> simp [hs]
  boundary s b hb := by
    obtain ⟨hne, hold⟩ := finish_lookup hb
    have hbo := h.boundary s b hold
    exact ⟨hbo.maxTxnId, h.finish_flag hne hold,
      fun x hx => hbo.hides x (finish_mem htxns hlive hx), hbo.excluded_lt⟩
  flag_inj s s' b b' hb hb' :=
    h.flag_inj s s' b b' (finish_lookup hb).2 (finish_lookup hb').2

end

/-- **Every call keeps the invariant.** -/
theorem change {e : Effect} (h : r.Ok) (hc : Change r e r') : r'.Ok := by
  cases hc with
  | quiet n level accepting hn =>
    exact h.of_same (fun _ ht => ht) (fun _ => Iff.rfl) rfl (h.advance hn) rfl rfl rfl rfl
  | enroll level hid hseq => exact h.enroll level hid hseq
  | mark t c st hst hlive hc =>
    obtain ⟨hmem, hl⟩ := rewrite_entry hst (st.isActiveOrCommitting_setCommitting c)
      { r with nextSequence := c, transactions := r.transactions.insert t (st.setCommitting c) } rfl
    exact h.of_same hmem hl rfl (h.advance hc) rfl rfl rfl rfl
  | finish t n left txns seqs times count hlive hn hleft htxns =>
    exact h.finish hleft htxns hlive hn
  | remark t st hst hdead =>
    have hsame : TxnState.newAborted.isActiveOrCommitting = st.isActiveOrCommitting := hdead.symm
    obtain ⟨hmem, hl⟩ := rewrite_entry hst hsame
      { r with transactions := r.transactions.insert t TxnState.newAborted } rfl
    exact h.of_same hmem hl rfl h.sequence rfl rfl rfl rfl
  | collect maxAge now => exact h.collect maxAge now

end Ok

/-! ## A live snapshot's boundary -/

variable {b : SnapshotBoundary} {s v : Int}

theorem Ok.boundary_of_live (h : r.Ok) (hc : Change r e r')
    (hb : r.snapshotExclusions.lookup s = some b) (hlive : r'.Live s) :
    r'.snapshotExclusions.lookup s = some b := by
  cases hc with
  | enroll level _ _ =>
    show (if _ then _ else _ : Table Int SnapshotBoundary).lookup s = some b
    split
    · rw [lookup_insert_if, if_neg, hb]
      rintro rfl
      exact h.not_snapshot_next (mem_of_lookup hb)
    · exact hb
  | finish t n left txns seqs times count _ _ hleft htxns =>
    have hne := ((Ok.finish_live hleft htxns s).mp hlive).1
    show (r.snapshotExclusions.erase t).lookup s = some b
    rw [lookup_erase_if, if_neg hne, hb]
  | _ => exact hb

theorem Change.boundary_new (h : Change r e r')
    (hn : r.snapshotExclusions.lookup s = none) (hb : r'.snapshotExclusions.lookup s = some b) :
    s = r.nextTxnId + 1 ∧ b = r.newBoundary s ∧
      r' = r.enroll .snapshotIsolation (r.nextTxnId + 1) (r.nextSequence + 1) := by
  cases h with
  | enroll level _ _ =>
    rcases Ok.enroll_lookup hb with ⟨rfl, rfl, rfl⟩ | hold
    · exact ⟨rfl, rfl, rfl⟩
    · cases hn.symm.trans hold
  | finish t n left txns seqs times count _ _ _ _ =>
    have hold := (Ok.finish_lookup hb).2
    cases hn.symm.trans hold
  | _ =>
    have hold : r.snapshotExclusions.lookup s = some b := hb
    cases hn.symm.trans hold

theorem ne_recovery_of_pos (h : 0 < v) : v ≠ recoveryTransactionId := by
  rintro rfl
  exact absurd h (by decide)

theorem Ok.needsSnapshotIsolation_of_boundary (h : r.Ok)
    (hb : r.snapshotExclusions.lookup s = some b) : r.needsSnapshotIsolation s = true := by
  have hov := (h.snapshot_override s).mp (mem_of_lookup hb)
  simp [needsSnapshotIsolation, getIsolationLevel, h.overrideCount_pos (mem_of_lookup hov), hov]

theorem Ok.visible_of_boundary (h : r.Ok) (hb : r.snapshotExclusions.lookup s = some b)
    (hne : v ≠ s) (hrec : v ≠ recoveryTransactionId) : r.visible v s = b.isVisible v := by
  simp [visible, hne, hrec, h.needsSnapshotIsolation_of_boundary hb, hb]

theorem visible_of_no_boundary (hb : r.snapshotExclusions.lookup s = none) (hne : v ≠ s)
    (hrec : v ≠ recoveryTransactionId) : r.visible v s = r.isCommitted v := by
  simp [visible, hne, hrec, hb]

/-- **Nothing the map tracks is visible to anyone else.** -/
theorem Ok.visible_of_tracked (h : r.Ok) (hv : v ∈ r.transactions) (hne : v ≠ s) :
    r.visible v s = false := by
  have hrec := ne_recovery_of_pos (h.tracked v hv).1
  cases hb : r.snapshotExclusions.lookup s with
  | none =>
    rw [visible_of_no_boundary hb hne hrec]
    simp [isCommitted, hv]
  | some b =>
    rw [h.visible_of_boundary hb hne hrec, ← Bool.not_eq_true, SnapshotBoundary.isVisible_iff]
    have hbo := h.boundary s b hb
    rintro ⟨_, hmax, hnot⟩
    rcases hbo.hides v hv hne with hex | hlt
    · exact hnot hex
    · rw [hbo.maxTxnId] at hmax
      omega

end TransactionRegistry
end RadixDb

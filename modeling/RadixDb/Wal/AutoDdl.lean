import RadixDb.Registry.State
import RadixDb.Value.Exact
import RadixDb.Lib.Run

/-!
# Identities of operations that commit by themselves

An operation on a table writes its record and its commit marker to the WAL under one internal
transaction id. Ids go down by one with each attempt. A manager that is opened starts as many below
the first id as the WAL has sequence numbers. **An attempt whose record is refused takes an id and
no sequence number**: ids run ahead of the numbers, and the next manager hands them out again
(`ids_distinct_iff`).
-/

namespace RadixDb.AutoDdl

open List

/-- How the write of an entry ends: it is admitted, perhaps without being durable, or nothing of it
is written. -/
inductive Written where
  | admitted | uncertain | refused
deriving DecidableEq

/-- A record in the WAL, with the sequence number at which its manager was opened and the attempts
that the manager had made before. -/
structure Call where
  txnId : ℤ
  lsn : ℕ
  opened : ℕ
  made : ℕ

structure Manager where
  currentLsn : ℕ
  /-- The WAL is in its terminal failed state. -/
  failed : Bool
  nextAutoDdlTxnId : ℤ
  records : List Call
  /-- The commit markers in the WAL, with their numbers. -/
  markers : List (ℤ × ℕ)
  opened : ℕ
  made : ℕ

def firstAutoDdlTxnId : ℤ := ddlTxnId - 1

namespace Manager

def new : Manager := ⟨0, false, firstAutoDdlTxnId, [], [], 0, 0⟩

variable (m : Manager)

/-- `append_entry`, if the entry is admitted; it is an error if the WAL has failed then. -/
def append (entry : Written) : Option Manager :=
  if m.failed ∨ 2 ^ 64 ≤ m.currentLsn + 1 ∨ entry = .refused then none
  else some { m with currentLsn := m.currentLsn + 1, failed := entry = .uncertain }

/-- The manager after an id is taken. -/
def allocated : Manager :=
  { m with nextAutoDdlTxnId := m.nextAutoDdlTxnId - 1, made := m.made + 1 }

/-- The record of an id that was taken. -/
def written (w : Manager) : Manager :=
  { w with records := ⟨m.nextAutoDdlTxnId, w.currentLsn, m.opened, m.made⟩ :: w.records }

/-- A WAL that has failed is not running, so that no id is taken. -/
def recordTableOperation (record marker : Written) : Manager × Bool :=
  if m.failed then (m, false)
  else if InI64 (m.nextAutoDdlTxnId - 1) then
    match m.allocated.append record with
    | none => (m.allocated, false)
    | some w =>
      if w.failed then (m.written w, false)
      else
        match (m.written w).append marker with
        | none => (m.written w, false)
        | some w =>
          ({ w with markers := (m.nextAutoDdlTxnId, w.currentLsn) :: w.markers }, !w.failed)
  else (m, false)

/-- A manager over the entries that are found at a restart. If there is no first id for it, it is
not opened, and nothing is appended. -/
def restart (kept : ℕ) : Manager :=
  let lsn := min kept m.currentLsn
  { currentLsn := lsn
    failed := ¬ InI64 (firstAutoDdlTxnId - lsn)
    nextAutoDdlTxnId := firstAutoDdlTxnId - lsn
    records := m.records.filter (·.lsn ≤ lsn)
    markers := m.markers.filter (·.2 ≤ lsn)
    opened := lsn
    made := 0 }

inductive Op where
  | record (record marker : Written)
  /-- An append of something else. -/
  | other (entry : Written)
  | restart (kept : ℕ)

def step : Op → Manager × Bool
  | .record record marker => m.recordTableOperation record marker
  | .other entry =>
    match m.append entry with
    | none => (m, false)
    | some w => (w, !w.failed)
  | .restart kept => (m.restart kept, true)

/-! ## Runs -/

/-- What a call took, as a manager that goes on or comes later knows it. -/
structure Known (currentLsn opened made : ℕ) (c : Call) : Prop where
  id : c.txnId = firstAutoDdlTxnId - c.opened - c.made
  opened_lt : c.opened < c.lsn
  lsn_le : c.lsn ≤ currentLsn
  made_lt : c.opened = opened → c.made < made

structure Ok : Prop where
  next : m.nextAutoDdlTxnId = firstAutoDdlTxnId - m.opened - m.made
  opened_le : m.opened ≤ m.currentLsn
  known : ∀ c ∈ m.records, Known m.currentLsn m.opened m.made c
  differ : m.records.Pairwise fun c d => c.opened = d.opened → c.made ≠ d.made

variable {m} {w : Manager} {entry : Written}

theorem append_cases (h : m.append entry = some w) :
    ∃ failed, w = { m with currentLsn := m.currentLsn + 1, failed } := by
  unfold append at h
  split_ifs at h
  cases h
  exact ⟨_, rfl⟩

theorem Ok.append (h : m.Ok) (hw : m.append entry = some w) : w.Ok := by
  obtain ⟨failed, rfl⟩ := append_cases hw
  refine ⟨h.next, h.opened_le.trans (Nat.le_succ _), fun c hc => ?_, h.differ⟩
  have hk := h.known c hc
  exact { hk with lsn_le := hk.lsn_le.trans (Nat.le_succ _) }

theorem Ok.allocated (h : m.Ok) : m.allocated.Ok := by
  refine ⟨?_, h.opened_le, fun c hc => ?_, h.differ⟩
  · simp only [Manager.allocated, h.next]
    omega
  · have hk := h.known c hc
    exact { hk with made_lt := fun ho => (hk.made_lt ho).trans (Nat.lt_succ_self _) }

/-- The record is the only one of its manager after as many attempts. -/
theorem Ok.written (h : m.Ok) (hw : m.allocated.append entry = some w) : (m.written w).Ok := by
  have hok := h.allocated.append hw
  obtain ⟨failed, rfl⟩ := append_cases hw
  refine ⟨hok.next, hok.opened_le, forall_mem_cons.mpr ⟨?_, hok.known⟩,
    pairwise_cons.mpr ⟨fun c hc ho => ?_, h.differ⟩⟩
  · exact ⟨h.next, Nat.lt_succ_of_le h.opened_le, le_rfl, fun _ => Nat.lt_succ_self _⟩
  · exact ((h.known c hc).made_lt ho.symm).ne'

theorem Ok.recordTableOperation (h : m.Ok) (record marker : Written) :
    (m.recordTableOperation record marker).1.Ok := by
  unfold Manager.recordTableOperation
  split_ifs
  · exact h
  · split
    · exact h.allocated
    · next w hw =>
      have hok := h.written hw
      split_ifs
      · exact hok
      · split
        · exact hok
        · next w' hw' =>
          have hok' := hok.append hw'
          exact ⟨hok'.next, hok'.opened_le, hok'.known, hok'.differ⟩
  · exact h

theorem Ok.restart (h : m.Ok) (kept : ℕ) : (m.restart kept).Ok := by
  refine ⟨?_, le_rfl, fun c hc => ?_, h.differ.filter _⟩
  · simp [Manager.restart]
  · obtain ⟨hc, hlsn⟩ := mem_filter.mp hc
    have hk := h.known c hc
    have hle := of_decide_eq_true hlsn
    refine ⟨hk.id, hk.opened_lt, hle, fun ho => ?_⟩
    exact absurd ho (hk.opened_lt.trans_le hle).ne

theorem Ok.step (h : m.Ok) (op : Op) : (m.step op).1.Ok := by
  cases op with
  | record record marker => exact h.recordTableOperation record marker
  | other entry =>
    simp only [Manager.step]
    split
    · exact h
    · next w hw => exact h.append hw
  | restart kept => exact h.restart kept

/-- **The records in the WAL have different ids exactly if** for no two managers the number at which
it was opened and the attempts it had made add up to the same. -/
theorem ids_distinct_iff (ops : List Op) (k : ℕ) :
    ((Run.after step new ops k).records.map Call.txnId).Nodup ↔
      (Run.after step new ops k).records.Pairwise fun c d =>
        c.opened ≠ d.opened → c.opened + c.made ≠ d.opened + d.made := by
  have h : (Run.after step new ops k).Ok :=
    Run.after_invariant ⟨rfl, le_rfl, nofun, .nil⟩ (fun _ op h => h.step op) k
  rw [Nodup, pairwise_map]
  constructor
  · intro hids
    refine hids.imp_of_mem fun hc hd hne _ hsum => hne ?_
    rw [(h.known _ hc).id, (h.known _ hd).id]
    omega
  · intro hsums
    refine (hsums.and h.differ).imp_of_mem fun {c d} hc hd ⟨hsum, hmade⟩ heq => ?_
    rw [(h.known _ hc).id, (h.known _ hd).id] at heq
    by_cases ho : c.opened = d.opened
    · exact hmade ho (by omega)
    · exact hsum ho (by omega)

/-- Three attempts are refused. The fourth one writes its record, but no marker. After a restart
three calls succeed, and the marker of the last one has the id of that record. -/
theorem marker_commits_another_call :
    let ops : List Op := replicate 3 (.record .refused .admitted) ++
      [.record .admitted .refused, .restart 1] ++ replicate 3 (.record .admitted .admitted)
    let m := Run.after step new ops 8
    m.records.map (fun c => (c.txnId, c.lsn)) = [(-6, 6), (-5, 4), (-4, 2), (-6, 1)] ∧
      (-6, 7) ∈ m.markers ∧ Run.outcomes step new ops =
        [false, false, false, false, true, true, true, true] := by
  decide

end Manager

end RadixDb.AutoDdl

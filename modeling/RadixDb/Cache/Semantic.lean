import RadixDb.Lib.Run

/-!
# The semantic cache and commits

An auto-commit SELECT reads the cache's generation, looks its table up, and on a miss scans a
snapshot and inserts the rows, if the generation is still the one it has read. A statement that
changes a table writes its rows, then invalidates the table, which drops the table's entries and
moves the generation on, and only then is the transaction committed. Each of these steps is atomic;
the sessions interleave them freely (`CacheOp`, `CacheState.step`).

What a cached row set is worth is the set of commits its scan has seen, so an entry is its table key
and that set. Columns and predicates decide which entry of the table a lookup finds, and time and
budgets decide when entries are dropped; a run may choose either in any way. Statements hand the
cache the name that the parser has lowered (`value_lower`), which `to_lowercase` and
`to_lowercase_cow` both leave as it is, so the name is the key.

The comment beside the invalidation says that it must come before the commit, to leave no window in
which old rows are served. It leaves one: **a SELECT that reads the generation after the
invalidation and scans before the commit caches rows that stay** (`old_rows_are_served`), because
nothing is invalidated at the commit. **Without such a SELECT a commit is safe** (`served_fresh`):
if each table that a transaction changed is invalidated after every SELECT of it that scans before
the commit has read the generation, nothing that misses the commit is served afterwards. The
condition is about the order of events alone (`LateScan`).

Every entry, and every SELECT that may still insert, goes back to such events (`Traced`), and from
the commit on whatever was scanned from the tables has seen it or is of a generation that has passed
(`Sees`). Both are kept by each of the four things a step can do to the cache (`Change`).
-/

namespace RadixDb

open List Function

/-! ## The cache -/

structure CachedResult where
  tableKey : String
  /-- The transactions whose commits the scan has seen. -/
  snapshot : List ℕ
  deriving DecidableEq

/-- A SELECT under way. `started` are the transactions that were committed when it began. -/
structure SelectState where
  table : String
  generation : ℕ
  started : List ℕ
  snapshot : Option (List ℕ)
  deriving DecidableEq

structure CacheState where
  generation : ℕ
  entries : List CachedResult
  committed : List ℕ
  selects : ℕ → Option SelectState
  /-- The tables that a transaction has changed and not invalidated since. -/
  pending : ℕ → List String
  changed : ℕ → List String

inductive CacheOp where
  /-- The session reads the generation. A SELECT that it had under way is given up. -/
  | select (session : ℕ) (table : String)
  | lookup (session : ℕ) (entry : ℕ)
  | scan (session : ℕ)
  | insertIfGeneration (session : ℕ)
  | write (transaction : ℕ) (table : String)
  | invalidateTable (transaction : ℕ) (table : String)
  | commit (transaction : ℕ)
  /-- An entry expires, or goes to make room. -/
  | evict (entry : ℕ)
  | clear

namespace CacheState

def initial : CacheState := ⟨0, [], [], fun _ => none, fun _ => [], fun _ => []⟩

/-- A transaction commits once, after the invalidations of its statements. -/
def CanCommit (s : CacheState) (t : ℕ) : Prop := t ∉ s.committed ∧ s.pending t = []

instance (s : CacheState) (t : ℕ) : Decidable (s.CanCommit t) := inferInstanceAs (Decidable (_ ∧ _))

def setSelect (s : CacheState) (q : ℕ) (select : Option SelectState) : CacheState :=
  { s with selects := update s.selects q select }

/-- One step. A lookup that hits returns the SELECT and the entry that it is served. -/
def step (s : CacheState) (op : CacheOp) : CacheState × Option (SelectState × CachedResult) :=
  match op with
  | .select q table =>
    (s.setSelect q (some ⟨table, s.generation, s.committed, none⟩), none)
  | .lookup q entry =>
    match s.selects q, s.entries[entry]? with
    | some select, some cached =>
      if select.snapshot = none ∧ cached.tableKey = select.table then
        (s.setSelect q none, some (select, cached))
      else (s, none)
    | _, _ => (s, none)
  | .scan q =>
    match s.selects q with
    | some select =>
      let snapshot := select.snapshot.getD s.committed
      (s.setSelect q (some { select with snapshot := some snapshot }), none)
    | none => (s, none)
  | .insertIfGeneration q =>
    match s.selects q with
    | some ⟨table, generation, _, some snapshot⟩ =>
      let entries := if generation = s.generation then s.entries ++ [⟨table, snapshot⟩]
        else s.entries
      ({ s.setSelect q none with entries }, none)
    | _ => (s, none)
  | .write t table =>
    if t ∈ s.committed then (s, none)
    else ({ s with
        pending := update s.pending t (table :: s.pending t)
        changed := update s.changed t (table :: s.changed t) }, none)
  | .invalidateTable t table =>
    ({ s with
        generation := s.generation + 1
        entries := s.entries.filter fun e => e.tableKey ≠ table
        pending := update s.pending t ((s.pending t).filter (· ≠ table)) }, none)
  | .commit t =>
    if s.CanCommit t then ({ s with committed := t :: s.committed }, none) else (s, none)
  | .evict entry => ({ s with entries := s.entries.eraseIdx entry }, none)
  | .clear => ({ s with generation := s.generation + 1, entries := [] }, none)

/-- The state after a run. -/
def after (ops : List CacheOp) : CacheState := ops.foldl (fun s op => (step s op).1) initial

/-- A SELECT is served rows that miss a commit which came before it and changed its table. -/
def Stale (t : ℕ) (tables : List String) (served : SelectState × CachedResult) : Prop :=
  t ∈ served.1.started ∧ served.1.table ∈ tables ∧ t ∉ served.2.snapshot

end CacheState

/-! ## Events -/

/-- The operation takes the entries of the table out of the cache. -/
def CacheOp.drops (table : String) : CacheOp → Bool
  | .invalidateTable _ name => name = table
  | .clear => true
  | _ => false

/-- The session begins a SELECT. -/
def CacheOp.begins (q : ℕ) : CacheOp → Bool
  | .select session _ => session = q
  | _ => false

/-- The session's SELECT is one of the table, and the table has not been invalidated since it read
the generation. -/
def LateSelect (ops : List CacheOp) (q : ℕ) (table : String) : Prop :=
  ∃ before since, ops = before ++ .select q table :: since ∧
    ∀ op ∈ since, op.begins q = false ∧ op.drops table = false

/-- A SELECT of the table has scanned, and the table has not been invalidated since it read the
generation. -/
def LateScan (ops : List CacheOp) (table : String) : Prop :=
  ∃ q early since, LateSelect early q table ∧ ops = early ++ .scan q :: since ∧
    ∀ op ∈ since, op.drops table = false

variable {ops : List CacheOp} {q t : ℕ} {table : String} {op : CacheOp}

theorem LateSelect.concat (h : LateSelect ops q table) (hq : op.begins q = false)
    (hop : op.drops table = false) : LateSelect (ops ++ [op]) q table := by
  obtain ⟨before, since, rfl, hsince⟩ := h
  exact ⟨before, since ++ [op], by simp, forall_mem_append.mpr ⟨hsince, by simp [hq, hop]⟩⟩

theorem LateScan.concat (h : LateScan ops table) (hop : op.drops table = false) :
    LateScan (ops ++ [op]) table := by
  obtain ⟨q, early, since, hearly, rfl, hsince⟩ := h
  exact ⟨q, early, since ++ [op], hearly, by simp, forall_mem_append.mpr ⟨hsince, by simp [hop]⟩⟩

/-- Right after an invalidation no scan is late. -/
theorem not_lateScan_of_drops (hop : op.drops table = true) : ¬ LateScan (ops ++ [op]) table := by
  rintro ⟨q, early, since, -, heq, hsince⟩
  have hlast : op ∈ CacheOp.scan q :: since := by
    have hlast := congrArg getLast? heq
    rw [getLast?_concat, getLast?_append_cons] at hlast
    exact mem_of_getLast? hlast.symm
  rcases mem_cons.mp hlast with rfl | hmem
  · cases hop
  · cases (hsince op hmem).symm.trans hop

namespace CacheState

/-! ## Steps -/

/-- What an operation can do to a cache: a SELECT begins, scans or inserts, or things are dropped.
-/
inductive Change (s : CacheState) : CacheOp → CacheState → Prop
  | begins (q : ℕ) (table : String) : Change s (.select q table)
      (s.setSelect q (some ⟨table, s.generation, s.committed, none⟩))
  | scans {q : ℕ} {select : SelectState} (h : s.selects q = some select) : Change s (.scan q)
      (s.setSelect q (some { select with snapshot := some (select.snapshot.getD s.committed) }))
  | inserts {q : ℕ} {select : SelectState} {snapshot : List ℕ} (h : s.selects q = some select)
      (hsnapshot : select.snapshot = some snapshot) (hcurrent : select.generation = s.generation) :
      Change s (.insertIfGeneration q) { s.setSelect q none with
        entries := s.entries ++ [⟨select.table, snapshot⟩] }
  | drops {op : CacheOp} {s' : CacheState} (hbegins : ∀ q, op.begins q = false)
      (hdrops : ∀ table, op.drops table = true → s.generation < s'.generation ∧
        ∀ e ∈ s'.entries, e.tableKey ≠ table)
      (hcommitted : ∀ t ∈ s.committed, t ∈ s'.committed)
      (hgeneration : s.generation ≤ s'.generation)
      (hentries : ∀ e ∈ s'.entries, e ∈ s.entries)
      (hselects : ∀ q select, s'.selects q = some select → s.selects q = some select) :
      Change s op s'

variable {s s' : CacheState} {tables : List String} {select : SelectState}

theorem selects_setSelect {q p : ℕ} {new : Option SelectState}
    (h : (s.setSelect q new).selects p = some select) :
    p = q ∧ new = some select ∨ p ≠ q ∧ s.selects p = some select := by
  unfold setSelect at h
  by_cases hp : p = q
  · subst hp
    exact .inl ⟨rfl, by simpa using h⟩
  · exact .inr ⟨hp, by simpa [hp] using h⟩

theorem selects_of_drop {q p : ℕ} (h : (s.setSelect q none).selects p = some select) :
    s.selects p = some select := by
  obtain ⟨-, hnew⟩ | ⟨-, h⟩ := selects_setSelect h
  · cases hnew
  · exact h

theorem change_step (s : CacheState) (op : CacheOp) : Change s op (step s op).1 := by
  -- what neither begins a SELECT nor drops a table
  have hsame {op : CacheOp} (hb : ∀ q, op.begins q = false) (hd : ∀ table, op.drops table = false) :
      Change s op s := .drops hb (by simp [hd]) (fun _ h => h) le_rfl (fun _ h => h) fun _ _ h => h
  have hdrop {op : CacheOp} (q : ℕ) (hb : ∀ q, op.begins q = false)
      (hd : ∀ table, op.drops table = false) : Change s op (s.setSelect q none) :=
    .drops hb (by simp [hd]) (fun _ h => h) le_rfl (fun _ h => h) fun _ _ => selects_of_drop
  unfold step
  cases op with
  | select q table => exact .begins q table
  | lookup q entry =>
    dsimp only
    split
    · split_ifs
      · exact hdrop q (fun _ => rfl) fun _ => rfl
      · exact hsame (fun _ => rfl) fun _ => rfl
    · exact hsame (fun _ => rfl) fun _ => rfl
  | scan q =>
    dsimp only
    split
    · next hq => exact .scans hq
    · exact hsame (fun _ => rfl) fun _ => rfl
  | insertIfGeneration q =>
    dsimp only
    split
    · next hq =>
      split_ifs with hcur
      · exact .inserts hq rfl hcur
      · exact hdrop q (fun _ => rfl) fun _ => rfl
    · exact hsame (fun _ => rfl) fun _ => rfl
  | write t table =>
    dsimp only
    split_ifs
    · exact hsame (fun _ => rfl) fun _ => rfl
    · exact .drops (fun _ => rfl) nofun (fun _ h => h) le_rfl (fun _ h => h) fun _ _ h => h
  | invalidateTable t table =>
    refine .drops (fun _ => rfl) (fun name hname => ⟨Nat.lt_succ_self _, fun e he => ?_⟩)
      (fun _ h => h) (Nat.le_succ _) (fun _ h => mem_of_mem_filter h) fun _ _ h => h
    obtain rfl : table = name := of_decide_eq_true hname
    simpa using (mem_filter.mp he).2
  | commit t =>
    dsimp only
    split_ifs
    · exact .drops (fun _ => rfl) nofun (fun _ h => mem_cons_of_mem t h) le_rfl (fun _ h => h)
        fun _ _ h => h
    · exact hsame (fun _ => rfl) fun _ => rfl
  | evict entry =>
    exact .drops (fun _ => rfl) nofun (fun _ h => h) le_rfl (fun _ h => mem_of_mem_eraseIdx h)
      fun _ _ h => h
  | clear =>
    exact .drops (fun _ => rfl) (fun _ _ => ⟨Nat.lt_succ_self _, nofun⟩) (fun _ h => h)
      (Nat.le_succ _) nofun fun _ _ h => h

/-- What is served is an entry under the key of the table. -/
theorem served_of_step {served : SelectState × CachedResult} (h : (step s op).2 = some served) :
    served.2 ∈ s.entries ∧ served.2.tableKey = served.1.table := by
  unfold step at h
  cases op with
  | lookup q entry =>
    dsimp only at h
    split at h
    · next hentry =>
      split_ifs at h with hhit
      cases h
      exact ⟨mem_of_getElem? hentry, hhit.2⟩
    · cases h
  | _ =>
    dsimp only at h
    first
      | cases h
      | (split at h <;> cases h)

/-! ## Where entries come from -/

/-- In every run, an entry goes back to a scan since whose SELECT began its table has not been
invalidated, and so does what a SELECT has scanned that may still insert it. -/
structure Traced (ops : List CacheOp) (s : CacheState) : Prop where
  entries : ∀ e ∈ s.entries, LateScan ops e.tableKey
  selects : ∀ q select, s.selects q = some select → select.generation ≤ s.generation ∧
    (select.generation = s.generation → LateSelect ops q select.table ∧
      (select.snapshot.isSome → LateScan ops select.table))

theorem Traced.change (h : Traced ops s) (hchange : Change s op s') : Traced (ops ++ [op]) s' := by
  cases hchange with
  | begins q table =>
    refine ⟨fun e he => (h.entries e he).concat rfl, fun p select hp => ?_⟩
    obtain ⟨rfl, hnew⟩ | ⟨hne, hp⟩ := selects_setSelect hp
    · cases hnew
      exact ⟨le_rfl, fun _ => ⟨⟨ops, [], rfl, nofun⟩, nofun⟩⟩
    · exact (h.selects p select hp).imp_right fun hcur hgen => (hcur hgen).imp
        (fun hl => hl.concat (decide_eq_false hne.symm) rfl) fun hl hs => (hl hs).concat rfl
  | @scans q select hq =>
    refine ⟨fun e he => (h.entries e he).concat rfl, fun p select' hp => ?_⟩
    obtain ⟨rfl, hnew⟩ | ⟨-, hp⟩ := selects_setSelect hp
    · cases hnew
      exact (h.selects p select hq).imp_right fun hcur hgen => ⟨(hcur hgen).1.concat rfl rfl,
        fun _ => ⟨p, ops, [], (hcur hgen).1, rfl, nofun⟩⟩
    · exact (h.selects p select' hp).imp_right fun hcur hgen => (hcur hgen).imp
        (fun hl => hl.concat rfl rfl) fun hl hs => (hl hs).concat rfl
  | @inserts q select snapshot hq hsnap hcurrent =>
    refine ⟨fun e he => ?_, fun p select' hp => ?_⟩
    · refine LateScan.concat ?_ rfl
      rcases mem_append.mp he with he | he
      · exact h.entries e he
      · rw [mem_singleton.mp he]
        exact ((h.selects q select hq).2 hcurrent).2 (by simp [hsnap])
    · exact (h.selects p select' (selects_of_drop hp)).imp_right fun hcur hgen => (hcur hgen).imp
        (fun hl => hl.concat rfl rfl) fun hl hs => (hl hs).concat rfl
  | drops hbegins hdrops _ hgen hents hsel =>
    have hkept {table : String} (hnot : ¬ op.drops table = true) : op.drops table = false := by
      simpa using hnot
    refine ⟨fun e he => (h.entries e (hents e he)).concat (hkept fun hop =>
      (hdrops _ hop).2 e he rfl), fun p select hp => ?_⟩
    obtain ⟨hle, hcur⟩ := h.selects p select (hsel p select hp)
    refine ⟨hle.trans hgen, fun hgen' => ?_⟩
    -- the generation has not moved on, so nothing was dropped
    have hop : op.drops select.table = false := hkept fun hop => by
      have := (hdrops _ hop).1
      omega
    exact (hcur (by omega)).imp (fun hl => hl.concat (hbegins p) hop)
      fun hl hs => (hl hs).concat hop

theorem after_concat (ops : List CacheOp) (op : CacheOp) :
    after (ops ++ [op]) = (step (after ops) op).1 := by
  rw [after, foldl_append]
  rfl

theorem traced_after (ops : List CacheOp) : Traced ops (after ops) := by
  induction ops using reverseRecOn with
  | nil => exact ⟨nofun, nofun⟩
  | append_singleton ops op ih =>
    rw [after_concat]
    exact ih.change (change_step _ op)

/-! ## After a commit -/

/-- What holds from a commit of `t` on: whatever was scanned from its tables has seen it, or is of a
generation that has passed. -/
structure Sees (s : CacheState) (t : ℕ) (tables : List String) : Prop where
  committed : t ∈ s.committed
  entries : ∀ e ∈ s.entries, e.tableKey ∈ tables → t ∈ e.snapshot
  selects : ∀ q select snapshot, s.selects q = some select → select.snapshot = some snapshot →
    select.table ∈ tables → t ∈ snapshot ∨ select.generation < s.generation

theorem Sees.change (h : s.Sees t tables) (hchange : Change s op s') : s'.Sees t tables := by
  cases hchange with
  | begins q table =>
    refine ⟨h.committed, h.entries, fun p select snapshot hp hsnap => ?_⟩
    obtain ⟨-, hnew⟩ | ⟨-, hp⟩ := selects_setSelect hp
    · cases hnew
      cases hsnap
    · exact h.selects p select snapshot hp hsnap
  | @scans q select hq =>
    refine ⟨h.committed, h.entries, fun p select' snapshot hp hsnap hkey => ?_⟩
    obtain ⟨-, hnew⟩ | ⟨-, hp⟩ := selects_setSelect hp
    · cases hnew
      cases hsnap
      cases hold : select.snapshot with
      | none => exact .inl h.committed
      | some old => exact h.selects q select old hq hold hkey
    · exact h.selects p select' snapshot hp hsnap hkey
  | @inserts q select snapshot hq hsnap hcur =>
    refine ⟨h.committed, fun e he hkey => ?_,
      fun p select' snapshot' hp => h.selects p select' snapshot' (selects_of_drop hp)⟩
    rcases mem_append.mp he with he | he
    · exact h.entries e he hkey
    · rw [mem_singleton.mp he] at hkey ⊢
      -- the generation has not moved on since the scan, so the scan has seen the commit
      exact (h.selects q select snapshot hq hsnap hkey).resolve_right hcur.not_lt
  | drops _ _ hcomm hgen hents hsel =>
    exact ⟨hcomm t h.committed, fun e he => h.entries e (hents e he),
      fun q select snapshot hq hsnap hkey =>
        (h.selects q select snapshot (hsel q select hq) hsnap hkey).imp_right
          fun hlt => hlt.trans_le hgen⟩

theorem Sees.outcomes (h : s.Sees t tables) (ops : List CacheOp) :
    ∀ served, some served ∈ Run.outcomes step s ops → ¬ Stale t tables served := by
  induction ops generalizing s with
  | nil =>
    intro served hserved
    cases hserved
  | cons op ops ih =>
    intro served hserved
    rcases mem_cons.mp hserved with hfirst | hrest
    · obtain ⟨hmem, hkey⟩ := served_of_step hfirst.symm
      rintro ⟨-, htable, hmiss⟩
      exact hmiss (h.entries _ hmem (hkey ▸ htable))
    · exact ih (h.change (change_step s op)) served hrest

/-- **After a commit no SELECT is served rows that miss it**, whatever happens afterwards, if before
the commit each table that the transaction changed was invalidated after every SELECT of it that has
scanned had read the generation. -/
theorem served_fresh (ops : List CacheOp) (t : ℕ) (h : (after ops).CanCommit t)
    (hquiet : ∀ table ∈ (after ops).changed t, ¬ LateScan ops table) :
    ∀ more served, some served ∈ Run.outcomes step (after (ops ++ [.commit t])) more →
      ¬ Stale t ((after ops).changed t) served := by
  have htraced := traced_after ops
  rw [after_concat]
  generalize after ops = s at h hquiet htraced ⊢
  have hcommit : (step s (.commit t)).1 = { s with committed := t :: s.committed } := by
    unfold step
    simp only [if_pos h]
  rw [hcommit]
  intro more
  refine Sees.outcomes ⟨mem_cons_self, fun e he hkey => ?_,
    fun q select snapshot hq hsnap hkey => ?_⟩ more
  · exact absurd (htraced.entries e he) (hquiet _ hkey)
  · obtain ⟨hle, hcur⟩ := htraced.selects q select hq
    exact .inr (hle.lt_of_ne fun hgen => hquiet _ hkey ((hcur hgen).2 (by simp [hsnap])))

/-- Session 1 has cached `orders`, and an UPDATE invalidates it. -/
def cachedThenUpdated : List CacheOp :=
  [.select 1 "orders", .scan 1, .insertIfGeneration 1, .write 1 "orders"] ++
    [.invalidateTable 1 "orders"]

/-- What session 2 caches after the commit and session 3 is served holds the UPDATE. -/
theorem served_fresh_cachedThenUpdated :
    ∃ served, some served ∈ Run.outcomes step (after (cachedThenUpdated ++ [.commit 1]))
        [.select 2 "orders", .scan 2, .insertIfGeneration 2, .select 3 "orders", .lookup 3 0] ∧
      ¬ Stale 1 ["orders"] served := by
  have hfresh := served_fresh cachedThenUpdated 1 (by decide) fun table htable =>
    not_lateScan_of_drops (decide_eq_true (mem_singleton.mp htable).symm)
  refine ⟨(⟨"orders", 1, [1], none⟩, ⟨"orders", [1]⟩), (and_iff_left_of_imp (hfresh _ _)).mpr ?_⟩
  decide +kernel

/-- An UPDATE of `orders` has invalidated the table and not committed yet: session 1 scans the old
rows and caches them, and session 2, which begins after the commit, is served them. -/
theorem old_rows_are_served :
    (⟨"orders", 1, [1], none⟩, ⟨"orders", []⟩) ∈ (Run.outcomes step initial
      [.write 1 "orders", .invalidateTable 1 "orders", .select 1 "orders", .scan 1,
        .insertIfGeneration 1, .commit 1, .select 2 "orders", .lookup 2 0]).filterMap id ∧
    Stale 1 ["orders"] (⟨"orders", 1, [1], none⟩, ⟨"orders", []⟩) := by
  refine ⟨?_, mem_cons_self, mem_cons_self, not_mem_nil⟩
  decide +kernel

end CacheState

end RadixDb

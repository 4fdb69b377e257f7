import RadixDb.Publication.RunsRead

/-!
# Merging sort runs

Sort runs that hold sorted records are merged to a run that holds them all, sorted, as they are read
(`reads_merger`). So consolidation keeps what the files hold together (`Holds`): **after any number
of passes the files hold, as they are read, the same records, and each file is sorted**
(`Holds.consolidate`).

That files are sorted has to be said of their records as they are read. It follows from how they
were sorted before they were written only if reading does not change how records compare.
-/

namespace RadixDb.Runs

open List

section

variable {κ P : Type} [LinearOrder P] {K : RunKind κ} {rank : κ → P} {crc : Crc}

/-- Records are ordered by key and row. -/
def recordRank (rank : κ → P) (r : RunRecord κ) : P ×ₗ ℕ := toLex (rank r.key, r.rowOrdinal)

theorem Lawful.gt_iff (hK : Lawful K rank) (a b : κ) : K.compare a b = .gt ↔ rank b < rank a := by
  have hlt := hK.lt_iff a b
  have heq := hK.eq_iff a b
  rcases lt_trichotomy (rank a) (rank b) with h | h | h
  · rw [hlt.mpr h]
    exact ⟨nofun, fun h' => absurd h' h.asymm⟩
  · rw [heq.mpr h]
    exact ⟨nofun, fun h' => absurd h h'.ne'⟩
  · refine ⟨fun _ => h, fun _ => ?_⟩
    cases hcmp : K.compare a b with
    | lt => exact absurd (hlt.mp hcmp) h.asymm
    | eq => exact absurd (heq.mp hcmp) h.ne'
    | gt => rfl

theorem compare_compares (hK : Lawful K rank) (a b : RunRecord κ) :
    (a.compare K b).Compares (recordRank rank a) (recordRank rank b) := by
  unfold RunRecord.compare
  cases hkey : K.compare a.key b.key with
  | lt => exact Prod.Lex.left _ _ ((hK.lt_iff _ _).mp hkey)
  | gt => exact Prod.Lex.left _ _ ((hK.gt_iff _ _).mp hkey)
  | eq =>
    have heq := (hK.eq_iff _ _).mp hkey
    cases hrows : Ord.compare a.rowOrdinal b.rowOrdinal with
    | lt => exact Prod.Lex.toLex_lt_toLex.mpr (.inr ⟨heq, compare_lt_iff_lt.mp hrows⟩)
    | eq => exact congrArg toLex (Prod.ext heq (compare_eq_iff_eq.mp hrows))
    | gt => exact Prod.Lex.toLex_lt_toLex.mpr (.inr ⟨heq.symm, compare_gt_iff_gt.mp hrows⟩)

theorem before_iff (hK : Lawful K rank) (a b : RunRecord κ) :
    before K a b = true ↔ recordRank rank a < recordRank rank b := by
  rw [before, beq_iff_eq, (compare_compares hK a b).eq_lt]

/-- Records in order. -/
abbrev InOrder (K : RunKind κ) (l : List (RunRecord κ)) : Prop := Merge.Sorted (before K) l

theorem not_before_iff (hK : Lawful K rank) (a b : RunRecord κ) :
    before K b a = false ↔ recordRank rank a ≤ recordRank rank b := by
  rw [Bool.eq_false_iff, ne_eq, before_iff hK, not_lt]

/-! ## Files -/

/-- A file that was written for the records. -/
structure FileOf (K : RunKind κ) (crc : Crc) (records : List (RunRecord κ))
    (file : Bytes) : Prop where
  file_eq : file = runHeader K crc records.length ++ records.flatMap (recordBytes K crc)
  ne : records ≠ []
  count : records.length < 2 ^ 64
  rows : ∀ r ∈ records, r.rowOrdinal < 2 ^ 64

variable {records : List (RunRecord κ)} {files : List Bytes} {limits : FanoutBuildLimits}
  {used used' : ℕ} {file : Bytes}

theorem FileOf.of_writeRun (hK : Lawful K rank) (h : writeRun K crc records = .ok file)
    (hne : records ≠ []) (hcount : records.length < 2 ^ 64)
    (hrows : ∀ r ∈ records, r.rowOrdinal < 2 ^ 64) : FileOf K crc records file := by
  rw [writeRun_eq hK] at h
  exact ⟨(Except.ok.inj h).symm, hne, hcount, hrows⟩

/-- A file that was opened has its records, as they are read. -/
theorem FileOf.openFirst (hK : Lawful K rank) {l : List (RunRecord κ)}
    (h : FileOf K crc records file) {run : Merge.Open (RunRecord κ) RunCursor}
    (hopen : openFirst K crc file = .ok run) (hl : run.Holds (RunCursor.nextRecord K crc) l) :
    l = records.map (readOf K) := by
  have hcursor : RunCursor.openRun K crc file = .ok (cursorOf K crc records) := by
    rw [h.file_eq]
    exact openRun_written hK h.ne h.count
  simp only [Runs.openFirst, hcursor, ok_bind] at hopen
  obtain ⟨r, hnext, hopen⟩ := ok_of_bind hopen
  cases r with
  | none => cases hopen
  | some r =>
    cases hopen
    obtain ⟨rest, rfl, hrest⟩ := hl
    exact reads_written hK h.rows (.more hnext hrest)

variable {lists : List (List (RunRecord κ))}

/-- **What merged files give**: a merge of their records, as they are read. -/
theorem reads_merger (hK : Lawful K rank) {merger : RunMerger κ}
    {out : List (RunRecord κ)} (hfiles : Forall₂ (FileOf K crc) lists files)
    (hopen : RunMerger.openRuns K crc files = .ok merger)
    (h : Reads (RunMerger.popRecord K crc) merger out) :
    Merge.Merged (before K) (lists.map fun l => l.map (readOf K)) out := by
  obtain ⟨ls, hholds, hmerge⟩ := Merge.reads_pop (before_iff hK) h
  unfold RunMerger.openRuns at hopen
  split_ifs at hopen with hempty
  have hruns := forall₂_of_mapM hopen
  have hall : ls = lists.map (fun l => l.map (readOf K)) := by
    clear hmerge hopen h hempty
    induction hfiles generalizing merger ls with
    | nil =>
      cases hruns
      cases hholds
      rfl
    | cons hfile hfiles ih =>
      cases hruns with
      | cons hrun hruns =>
        cases hholds with
        | cons hhold hholds =>
          rw [hfile.openFirst hK hrun hhold, ih _ hholds hruns, map_cons]
  rwa [← hall]

/-- What files hold, together and as it is read, and that each is sorted. -/
structure Holds (K : RunKind κ) (crc : Crc) (all : List (RunRecord κ))
    (lists : List (List (RunRecord κ))) (files : List Bytes) : Prop where
  files_of : Forall₂ (FileOf K crc) lists files
  perm : (lists.flatten.map (readOf K)).Perm (all.map (readOf K))
  sorted : ∀ l ∈ lists, InOrder K (l.map (readOf K))

theorem mergeSortedRuns_spec (hK : Lawful K rank) {output : Bytes}
    (hfiles : Forall₂ (FileOf K crc) lists files) (hcount : lists.flatten.length < 2 ^ 64)
    (hsorted : ∀ l ∈ lists, InOrder K (l.map (readOf K)))
    (h : mergeSortedRuns K crc limits files used = .ok (output, used')) :
    ∃ out, FileOf K crc out output ∧ out.Perm (lists.flatten.map (readOf K)) ∧ InOrder K out := by
  obtain ⟨outputBytes, -, h⟩ := ok_of_bind h
  obtain ⟨used'', -, h⟩ := ok_of_bind h
  obtain ⟨merger, hopen, h⟩ := ok_of_bind h
  obtain ⟨out, htake, h⟩ := ok_of_bind h
  obtain ⟨file, hwrite, h⟩ := ok_of_bind h
  split_ifs at h with hlen hlength
  cases h
  have hreads := reads_of_takeFrom htake (by omega)
  have hmerge := reads_merger hK hfiles hopen hreads
  have hperm : out.Perm (lists.flatten.map (readOf K)) := by
    rw [map_flatten]
    exact hmerge.perm
  have hsortedOut : InOrder K out := hmerge.sorted (before_iff hK) fun l hl => by
    obtain ⟨l', hl', rfl⟩ := mem_map.mp hl
    exact hsorted l' hl'
  have hmem : ∀ r ∈ out, ∃ l ∈ lists, ∃ r' ∈ l, readOf K r' = r := by
    intro r hr
    obtain ⟨r', hr', rfl⟩ := mem_map.mp (hperm.mem_iff.mp hr)
    obtain ⟨l, hl, hr'⟩ := mem_flatten.mp hr'
    exact ⟨l, hl, r', hr', rfl⟩
  refine ⟨out, FileOf.of_writeRun hK hwrite ?_ ?_ ?_, hperm, hsortedOut⟩
  · rintro rfl
    unfold RunMerger.openRuns at hopen
    split_ifs at hopen with hempty
    cases hfiles with
    | nil => exact hempty rfl
    | cons hfile _ =>
      have hnil := map_eq_nil_iff.mp (nil_perm.mp hperm)
      rw [flatten_cons, append_eq_nil_iff] at hnil
      exact hfile.ne hnil.1
  · rwa [hperm.length_eq, length_map]
  · intro r hr
    obtain ⟨l, hl, r', hr', rfl⟩ := hmem r hr
    obtain ⟨i, hi, rfl⟩ := getElem_of_mem hl
    exact (hfiles.get hi (hfiles.length_eq ▸ hi)).rows r' hr'

/-! ## Passes -/

theorem flatten_chunksFrom {α : Type} (size : ℕ) (chunk rest : List α) :
    (chunksFrom size chunk rest).flatten = chunk ++ rest := by
  induction rest generalizing chunk with
  | nil =>
    rw [chunksFrom]
    split_ifs with h
    · rw [isEmpty_iff.mp h]
      rfl
    · simp
  | cons a rest ih =>
    rw [chunksFrom]
    split_ifs
    · rw [ih, append_assoc]
      rfl
    · rw [flatten_cons, ih]
      rfl

theorem forall₂_chunksFrom {α β : Type} {R : α → β → Prop} (size : ℕ) {chunk rest : List α}
    {chunk' rest' : List β} (hchunk : Forall₂ R chunk chunk')
    (hrest : Forall₂ R rest rest') :
    Forall₂ (Forall₂ R) (chunksFrom size chunk rest) (chunksFrom size chunk' rest') := by
  induction hrest generalizing chunk chunk' with
  | nil =>
    cases hchunk with
    | nil => exact .nil
    | cons h hs => exact .cons (.cons h hs) .nil
  | cons h _ ih =>
    rw [chunksFrom, chunksFrom, hchunk.length_eq]
    split_ifs
    · exact ih (rel_append hchunk (.cons h .nil))
    · exact .cons hchunk (ih (.cons h .nil))

/-- **One pass**: the files that are written hold the records as they are read. -/
theorem mergePass_spec (hK : Lawful K rank) {chunkLists : List (List (List (RunRecord κ)))}
    {chunks : List (List Bytes)} {outputs : List Bytes}
    (hfiles : Forall₂ (Forall₂ (FileOf K crc)) chunkLists chunks)
    (hcount : chunkLists.flatten.flatten.length < 2 ^ 64)
    (hsorted : ∀ l ∈ chunkLists.flatten, InOrder K (l.map (readOf K)))
    (h : mergePass K crc limits chunks used = .ok (outputs, used')) :
    ∃ lists, Forall₂ (FileOf K crc) lists outputs ∧
      lists.flatten.Perm (chunkLists.flatten.flatten.map (readOf K)) ∧
      ∀ l ∈ lists, InOrder K l := by
  induction hfiles generalizing used outputs with
  | nil =>
    cases h
    exact ⟨[], .nil, .nil, forall_mem_nil _⟩
  | @cons lists files chunkLists chunks hfile hfiles ih =>
    obtain ⟨r, hmerge, h⟩ := ok_of_bind h
    obtain ⟨rest, hpass, h⟩ := ok_of_bind h
    cases h
    rw [flatten_cons, flatten_append, length_append] at hcount
    obtain ⟨out, hout, hperm, hin⟩ := mergeSortedRuns_spec hK hfile (by omega)
      (fun l hl => hsorted l (mem_append_left _ hl)) hmerge
    obtain ⟨lists', hfiles', hperm', hin'⟩ := ih (by omega)
      (fun l hl => hsorted l (mem_append_right _ hl)) hpass
    refine ⟨out :: lists', .cons hout hfiles', ?_, forall_mem_cons.mpr ⟨hin, hin'⟩⟩
    rw [flatten_cons, flatten_cons, flatten_append, map_append]
    exact hperm.append hperm'

/-- **Consolidation** keeps what the files hold. -/
theorem Holds.consolidate (hK : Lawful K rank) {all : List (RunRecord κ)}
    (hcount : all.length < 2 ^ 64) {fuel : ℕ}
    {files' : List Bytes} (h : Holds K crc all lists files)
    (hpasses : consolidatePasses K crc limits fuel files used = some (.ok (files', used'))) :
    ∃ lists', Holds K crc all lists' files' := by
  induction fuel generalizing lists files used with
  | zero =>
    rw [consolidatePasses] at hpasses
    split_ifs at hpasses with hfew
    cases hpasses
    exact ⟨lists, h⟩
  | succ fuel ih =>
    rw [consolidatePasses] at hpasses
    split_ifs at hpasses with hfew
    · cases hpasses
      exact ⟨lists, h⟩
    · cases hpass : mergePass K crc limits (chunksFrom limits.mergeFanIn [] files) used with
      | error e =>
        rw [hpass] at hpasses
        cases hpasses
      | ok r =>
        rw [hpass] at hpasses
        have hflat : (chunksFrom limits.mergeFanIn [] lists).flatten = lists := by
          rw [flatten_chunksFrom]
          rfl
        have hlen := h.perm.length_eq
        rw [length_map, length_map] at hlen
        obtain ⟨lists', hfiles, hperm, hin⟩ := mergePass_spec hK
          (forall₂_chunksFrom limits.mergeFanIn .nil h.files_of) (by rw [hflat]; omega)
          (by rw [hflat]; exact h.sorted) hpass
        rw [hflat] at hperm
        -- what was read once is read as it is
        have hread : ∀ r ∈ lists'.flatten, readOf K r = r := by
          intro r hr
          obtain ⟨r', -, rfl⟩ := mem_map.mp (hperm.mem_iff.mp hr)
          exact readOf_readOf hK r'
        refine ih ⟨hfiles, ?_, fun l hl => ?_⟩ hpasses
        · rw [map_congr_left hread, map_id']
          exact hperm.trans h.perm
        · have hl' : ∀ r ∈ l, readOf K r = r := fun r hr =>
            hread r (mem_flatten.mpr ⟨l, hl, hr⟩)
          rw [map_congr_left hl', map_id']
          exact hin l hl

end

end RadixDb.Runs

import RadixDb.Publication.Postings
import RadixDb.Index.OrderedBuilt

/-!
# Builds in memory and with files

A builder that is given records keeps them in its buffer and in files, and each file was sorted
before it was written (`Builds`). When the builder is done, the records are in a list that is
sorted (`streams_memory`), or in files that are merged by the keys that are read from them
(`streams_files`).

**If reading keys does not change how they compare** (`KeepsOrder`), the two are the same list but
for the keys, whatever the limits are: so two builds give the same postings, but for where they are
cut, and where they are cut depends on the maximum of rows in a fragment alone. That maximum comes
from the byte budget and the page limits, so it is the one limit that does change a build.

Reading changes no key of an exact accelerator. In an ordered one, an instant in a leap second is
read as an instant in the next second. Runs that were sorted with the one are merged with the other,
so a build that writes files gives another order than one that does not
(`spilled_leap_second_moves`). This is not only one way to fail: of a build in memory and a build
with a file for every record, equal postings say that all keys compare the same
(`same_iff_keepsOrder`). Builds in between, which sort some records before they are read, can
agree by luck; for them only one direction holds.
-/

namespace RadixDb.Runs

open List IndexPage

section

variable {κ P : Type} [LinearOrder P] {K : RunKind κ} {rank : κ → P} {crc : Crc}
  {spec : BuildSpec}

/-- The records that are not skipped. -/
def kept (K : RunKind κ) (unique : Bool) (records : List (RunRecord κ)) : List (RunRecord κ) :=
  records.filter fun r => !(K.skipsNull && unique && K.hasNullComponent r.key)

/-! ## What a builder holds -/

/-- A builder that was given records, and the records of its files. -/
structure Builds (K : RunKind κ) (crc : Crc) (spec : BuildSpec) (records : List (RunRecord κ))
    (builder : IndexRunBuilder κ) (lists : List (List (RunRecord κ))) : Prop where
  files_of : Forall₂ (FileOf K crc) lists builder.runs
  perm : (lists.flatten ++ builder.buffer).Perm records
  sorted : ∀ l ∈ lists, InOrder K l
  buffer_sorted : builder.bufferIsSorted = true → InOrder K builder.buffer
  count : builder.indexedItemCount = records.length
  count_lt : records.length < 2 ^ 64
  short : ∀ l ∈ lists, l.length ≤ spec.limits.sortRunRecords
  buffer_short : builder.buffer.length ≤ spec.limits.sortRunRecords

theorem Builds.new (K : RunKind κ) (crc : Crc) (spec : BuildSpec) (spilledBytes : ℕ) :
    Builds K crc spec [] (IndexRunBuilder.new spilledBytes) [] :=
  ⟨.nil, .nil, forall_mem_nil _, fun _ => .nil, rfl, Nat.two_pow_pos 64, forall_mem_nil _,
    Nat.zero_le _⟩

theorem inOrder_mergeSort (hK : Lawful K rank) (l : List (RunRecord κ)) :
    InOrder K (l.mergeSort fun a b => a.compare K b != .gt) := by
  have hle : ∀ a b, (a.compare K b != .gt) = true ↔ recordRank rank a ≤ recordRank rank b := by
    intro a b
    rw [bne_iff_ne, ne_eq, (compare_compares hK a b).eq_gt, not_lt]
  have htrans : ∀ a b c : RunRecord κ, (a.compare K b != .gt) = true →
      (b.compare K c != .gt) = true → (a.compare K c != .gt) = true := fun a b c hab hbc =>
    (hle a c).mpr (((hle a b).mp hab).trans ((hle b c).mp hbc))
  have htotal : ∀ a b : RunRecord κ,
      (a.compare K b != .gt || b.compare K a != .gt) = true := fun a b => by
    rw [Bool.or_eq_true, hle, hle]
    exact le_total _ _
  have hsorted := pairwise_mergeSort htrans htotal l
  exact hsorted.imp fun hab => (not_before_iff hK _ _).mpr ((hle _ _).mp hab)

variable {records : List (RunRecord κ)} {lists : List (List (RunRecord κ))}
  {builder : IndexRunBuilder κ}

theorem Builds.sortBuffer (hK : Lawful K rank) (h : Builds K crc spec records builder lists) :
    Builds K crc spec records (builder.sortBuffer K) lists ∧
      InOrder K (builder.sortBuffer K).buffer := by
  unfold IndexRunBuilder.sortBuffer
  split_ifs with hsorted
  · exact ⟨h, h.buffer_sorted hsorted⟩
  · have hin := inOrder_mergeSort hK builder.buffer
    refine ⟨⟨h.files_of, ((mergeSort_perm _ _).append_left _).trans h.perm, h.sorted,
      fun _ => hin, h.count, h.count_lt, h.short, ?_⟩, hin⟩
    exact (mergeSort_perm _ _).length_eq.trans_le h.buffer_short

theorem sortBuffer_eq_nil (builder : IndexRunBuilder κ) :
    (builder.sortBuffer K).buffer = [] ↔ builder.buffer = [] := by
  unfold IndexRunBuilder.sortBuffer
  split_ifs
  · rfl
  · simp [← length_eq_zero_iff]

variable {builder' : IndexRunBuilder κ}

/-- **Writing the buffer** to a file. -/
theorem Builds.flush (hK : Lawful K rank) (hrows : ∀ r ∈ records, r.rowOrdinal < 2 ^ 64)
    (h : Builds K crc spec records builder lists)
    (hflush : builder.flush K crc spec = .ok builder') :
    ∃ lists', Builds K crc spec records builder' lists' ∧ builder'.buffer = [] := by
  unfold IndexRunBuilder.flush at hflush
  split_ifs at hflush with hempty hfiles
  · cases hflush
    exact ⟨lists, h, isEmpty_iff.mp hempty⟩
  obtain ⟨hs, hin⟩ := h.sortBuffer hK
  obtain ⟨spilled, -, hflush⟩ := ok_of_bind hflush
  obtain ⟨file, hwrite, hflush⟩ := ok_of_bind hflush
  cases hflush
  have hmem : ∀ r ∈ (builder.sortBuffer K).buffer, r ∈ records := fun r hr =>
    hs.perm.mem_iff.mp (mem_append_right _ hr)
  have hlen := hs.perm.length_eq
  have hlt := hs.count_lt
  rw [length_append] at hlen
  have hfile : FileOf K crc (builder.sortBuffer K).buffer file := by
    refine FileOf.of_writeRun hK hwrite ?_ (by omega) fun r hr => hrows r (hmem r hr)
    rwa [ne_eq, sortBuffer_eq_nil builder, ← List.isEmpty_iff]
  refine ⟨lists ++ [(builder.sortBuffer K).buffer],
    ⟨rel_append hs.files_of (.cons hfile .nil), ?_, ?_, fun _ => .nil, hs.count, hlt,
      forall_mem_append.mpr ⟨hs.short, forall_mem_singleton.mpr hs.buffer_short⟩, Nat.zero_le _⟩,
    rfl⟩
  · rw [flatten_append, flatten_cons, flatten_nil, append_nil, append_nil]
    exact hs.perm
  · exact forall_mem_append.mpr ⟨hs.sorted, forall_mem_singleton.mpr ‹_›⟩

theorem Builds.buffered (hK : Lawful K rank) {record : RunRecord κ}
    (h : Builds K crc spec records builder lists) (hcount : records.length + 1 < 2 ^ 64)
    (hroom : builder.buffer.length < spec.limits.sortRunRecords) :
    Builds K crc spec (records ++ [record]) (builder.buffered K spec record) lists := by
  refine ⟨h.files_of, ?_, h.sorted, fun hsorted => ?_, ?_, ?_, h.short, ?_⟩
  · show (lists.flatten ++ (builder.buffer ++ [record])).Perm _
    rw [← append_assoc]
    exact h.perm.append_right _
  · obtain ⟨hbuffer, hlast⟩ := (Bool.and_eq_true _ _).mp hsorted
    have hin := h.buffer_sorted hbuffer
    refine pairwise_append.mpr ⟨hin, pairwise_singleton _ _, fun a ha b hb => ?_⟩
    rw [mem_singleton.mp hb, not_before_iff hK]
    obtain ⟨front, last, hsplit⟩ := eq_nil_or_concat builder.buffer |>.resolve_left
      (ne_nil_of_mem ha)
    have hlastLe : recordRank rank last ≤ recordRank rank record := by
      rwa [hsplit, concat_eq_append, getLast?_concat, Option.any_some, Bool.not_eq_true',
        beq_eq_false_iff_ne, ne_eq, (compare_compares hK last record).eq_gt, not_lt] at hlast
    rw [hsplit, concat_eq_append] at ha hin
    rcases mem_append.mp ha with ha | ha
    · exact ((not_before_iff hK _ _).mp
        ((pairwise_append.mp hin).2.2 a ha last mem_cons_self)).trans hlastLe
    · rwa [mem_singleton.mp ha]
  · show builder.indexedItemCount + 1 = _
    rw [h.count, length_append, length_singleton]
  · rwa [length_append, length_singleton]
  · show (builder.buffer ++ [record]).length ≤ _
    rwa [length_append, length_singleton]

theorem kept_append (unique : Bool) (records : List (RunRecord κ)) (record : RunRecord κ) :
    kept K unique (records ++ [record]) = kept K unique records ++
      if K.skipsNull && unique && K.hasNullComponent record.key then [] else [record] := by
  rw [kept, filter_append, kept]
  cases hskip : K.skipsNull && unique && K.hasNullComponent record.key with
  | true => rw [filter_cons_of_neg (by rw [hskip]; nofun)]; rfl
  | false => rw [filter_cons_of_pos (by rw [hskip]; rfl)]; rfl

/-- **One record.** -/
theorem Builds.pushKey (hK : Lawful K rank) (hrows : ∀ r ∈ records, r.rowOrdinal < 2 ^ 64)
    {record : RunRecord κ} (h : Builds K crc spec (kept K spec.unique records) builder lists)
    (hpush : builder.pushKey K crc spec record.key record.rowOrdinal = .ok builder') :
    ∃ lists', Builds K crc spec (kept K spec.unique (records ++ [record])) builder' lists' := by
  have hone := spec.limits.records.1
  have hkept : ∀ r ∈ kept K spec.unique records, r.rowOrdinal < 2 ^ 64 := fun r hr =>
    hrows r (mem_filter.mp hr).1
  rw [kept_append]
  unfold IndexRunBuilder.pushKey at hpush
  dsimp only at hpush
  split_ifs at hpush with hskip _ _ hfull
  · cases hpush
    rw [if_pos hskip, append_nil]
    exact ⟨lists, h⟩
  · obtain ⟨flushed, hflush, hpush⟩ := ok_of_bind hpush
    split_ifs at hpush with hover
    cases hpush
    obtain ⟨lists', h', hempty⟩ := h.flush hK hkept hflush
    rw [h'.count, not_le] at hover
    rw [if_neg hskip]
    exact ⟨lists', h'.buffered hK hover (by rwa [hempty])⟩
  · obtain ⟨_, hsame, hpush⟩ := ok_of_bind hpush
    cases hsame
    split_ifs at hpush with hover
    cases hpush
    rw [h.count, not_le] at hover
    rw [if_neg hskip]
    refine ⟨lists, h.buffered hK hover ?_⟩
    by_contra hlong
    cases hbuffer : builder.buffer with
    | nil => exact hlong (by rwa [hbuffer])
    | cons r rest =>
      rw [not_lt, hbuffer] at hlong
      simp [IndexRunBuilder.isFull, hbuffer, show spec.limits.sortRunRecords ≤ rest.length + 1 from
        hlong] at hfull

/-- **All records.** -/
theorem Builds.pushAll (hK : Lawful K rank) {more : List (RunRecord κ)}
    (hrows : ∀ r ∈ records ++ more, r.rowOrdinal < 2 ^ 64)
    (h : Builds K crc spec (kept K spec.unique records) builder lists)
    (hpush : builder.pushAll K crc spec more = .ok builder') :
    ∃ lists', Builds K crc spec (kept K spec.unique (records ++ more)) builder' lists' := by
  induction more generalizing records builder lists with
  | nil =>
    cases hpush
    rw [append_nil]
    exact ⟨lists, h⟩
  | cons record more ih =>
    obtain ⟨pushed, hone, hpush⟩ := ok_of_bind hpush
    obtain ⟨lists', h'⟩ := h.pushKey hK
      (fun r hr => hrows r (mem_append_left _ hr)) hone
    rw [append_cons] at hrows ⊢
    exact ih hrows h' hpush

/-! ## Done -/

variable {all sorted : List (RunRecord κ)} {groups : List (PostingEntry κ)}

/-- Reading leaves records in order if it does not change how they compare. -/
theorem inOrder_asRead {l : List (RunRecord κ)} (hkeeps : KeepsOrder K all)
    (hmem : ∀ r ∈ l, r ∈ all) (hl : InOrder K l) : InOrder K (l.map (readOf K)) := by
  refine pairwise_map.mpr (hl.imp_of_mem fun {a b} ha hb hab => ?_)
  rw [← hab]
  simp only [before, RunRecord.compare, readOf, hkeeps b (hmem b hb) a (hmem a ha)]

/-- The lists that go into one file are still in order when they are read. -/
def KeepsRuns (K : RunKind κ) (spec : BuildSpec) (all : List (RunRecord κ)) : Prop :=
  ∀ l, l.length ≤ spec.limits.sortRunRecords → (∀ r ∈ l, r ∈ all) → InOrder K l →
    InOrder K (l.map (readOf K))

/-- A file of one record is in order however it is read. -/
theorem keepsRuns_of_one (hone : spec.limits.sortRunRecords = 1) : KeepsRuns K spec all := by
  intro l hl _ _
  rw [hone] at hl
  obtain _ | ⟨r, _ | ⟨s, l⟩⟩ := l
  · exact .nil
  · exact pairwise_singleton _ _
  · simp at hl

/-- What is prepared of records. -/
def Prepared (K : RunKind κ) (crc : Crc) (spec : BuildSpec) (all : List (RunRecord κ)) :
    PreparedRuns κ → Prop
  | .empty => all = []
  | .memory l => l.Perm all ∧ InOrder K l ∧ l.length ≤ spec.limits.sortRunRecords
  | .files files => ∃ lists, Holds K crc all lists files

variable {prepared : PreparedRuns κ}

theorem Builds.prepare (hK : Lawful K rank)
    (hkeeps : (∀ files, prepared ≠ .files files) ∨ KeepsRuns K spec all)
    (hrows : ∀ r ∈ all, r.rowOrdinal < 2 ^ 64) (h : Builds K crc spec all builder lists)
    (hprep : builder.prepare K crc spec = .ok prepared) : Prepared K crc spec all prepared := by
  unfold IndexRunBuilder.prepare at hprep
  split_ifs at hprep with hzero hnull hruns
  · cases hprep
    rw [h.count] at hzero
    exact length_eq_zero_iff.mp hzero
  · cases hprep
    obtain ⟨hs, hin⟩ := h.sortBuffer hK
    refine ⟨?_, hin, hs.buffer_short⟩
    have hperm := hs.perm
    have hnone : lists = [] := by
      have hfiles := h.files_of
      rw [isEmpty_iff.mp hruns] at hfiles
      cases hfiles
      rfl
    rwa [hnone] at hperm
  · obtain ⟨flushed, hflush, hprep⟩ := ok_of_bind hprep
    obtain ⟨⟨files', used⟩, hmerge, hprep⟩ := ok_of_bind hprep
    dsimp only at hprep
    split_ifs at hprep
    cases hprep
    have hkeeps := hkeeps.resolve_left fun hno => hno _ rfl
    obtain ⟨lists', h', hempty⟩ := h.flush hK hrows hflush
    have hperm := h'.perm
    rw [hempty, append_nil] at hperm
    refine Holds.consolidate hK h'.count_lt
      ⟨h'.files_of, hperm.map _, fun l hl => hkeeps l (h'.short l hl) (fun r hr => ?_)
        (h'.sorted l hl)⟩ (Option.eq_some_of_isSome _ |>.trans (congrArg some hmerge))
    exact hperm.mem_iff.mp (mem_flatten.mpr ⟨l, hl, hr⟩)

/-- Sorted lists of the same records are the same, if no two records are of one row. -/
theorem eq_of_inOrder (hK : Lawful K rank) {l l' : List (RunRecord κ)} (hperm : l.Perm l')
    (hrows : (l.map (·.rowOrdinal)).Nodup) (hl : InOrder K l) (hl' : InOrder K l') : l = l' := by
  refine hperm.eq_of_pairwise (fun a b ha hb hab hba => ?_) hl hl'
  have heq := le_antisymm ((not_before_iff hK a b).mp hab) ((not_before_iff hK b a).mp hba)
  exact inj_on_of_nodup_map hrows ha (hperm.mem_iff.mpr hb)
    (Prod.mk.inj (toLex.injective heq)).2

/-- The postings of a list of records in order. -/
structure Lists (K : RunKind κ) (maximum : ℕ) (all l : List (RunRecord κ))
    (groups : List (PostingEntry κ)) : Prop where
  perm : l.Perm all
  inOrder : InOrder K l
  reads : Reads (nextGroup K memoryRecords maximum) ⟨l, none⟩ groups

theorem streams_memory {maximum : ℕ} (hno : ∀ files, prepared ≠ .files files)
    (hprep : Prepared K crc spec all prepared) (h : prepared.Streams K crc maximum groups) :
    ∃ l, l.length ≤ spec.limits.sortRunRecords ∧ Lists K maximum all l groups := by
  cases prepared with
  | empty =>
    obtain rfl : groups = [] := h
    obtain rfl : all = [] := hprep
    exact ⟨[], Nat.zero_le _, .nil, .nil, .done rfl⟩
  | memory l =>
    obtain ⟨hl, hin, hshort⟩ := hprep
    exact ⟨l, hshort, hl, hin, h⟩
  | files files => exact absurd rfl (hno files)

/-- Files give the records as they are read, in the order that they have then. -/
theorem streams_files (hK : Lawful K rank) {maximum : ℕ} {files : List Bytes}
    (hprep : Prepared K crc spec all (.files files))
    (h : (PreparedRuns.files files).Streams K crc maximum groups) :
    ∃ l, Lists K maximum (all.map (readOf K)) l groups := by
  obtain ⟨lists, hholds⟩ := hprep
  obtain ⟨merger, hopen, hreads⟩ := h
  obtain ⟨out, hout, hgroups⟩ := reads_groups (peeks_merged hK crc) hreads
  have hmerge := reads_merger hK hholds.files_of hopen hout
  have hin : InOrder K out := hmerge.sorted (before_iff hK) fun l hl => by
    obtain ⟨l', hl', rfl⟩ := mem_map.mp hl
    exact hholds.sorted l' hl'
  refine ⟨out, ?_, hin, hgroups⟩
  have hall := hholds.perm
  rw [map_flatten] at hall
  exact hmerge.perm.trans hall

/-! ## Two builds -/

/-- A posting as it is stored. -/
def storedEntry (K : RunKind κ) (g : PostingEntry κ) : PageEntry (Bytes × Bool) :=
  ⟨(K.bytes g.key, K.hasNullComponent g.key), g.rowOrdinals, g.fragmentState⟩

theorem storedEntry_asRead (hK : Lawful K rank) (groups : List (PostingEntry κ)) :
    (groups.map (postingAsRead K)).map (storedEntry K) = groups.map (storedEntry K) := by
  rw [map_map]
  refine map_congr_left fun g _ => ?_
  obtain ⟨hbytes, hnull⟩ := keyAsRead_bytes hK g.key
  simp only [Function.comp_apply, storedEntry, postingAsRead, hbytes, hnull]

theorem joined_storedEntry (K : RunKind κ) (groups : List (PostingEntry κ)) :
    joined join (groups.map (storedEntry K)) = (joined join (groups.map uncut)).map
      fun e => ⟨(K.bytes e.key, K.hasNullComponent e.key), e.rows, e.state⟩ := by
  rw [← joined_map, map_map]
  · rfl
  · intro a b
    simp only [join]
    split_ifs <;> rfl

/-- A build of the records gives the postings, when `spilled` bytes are reserved by others, from
what it has prepared. -/
def ProducesFrom (K : RunKind κ) (crc : Crc) (spec : BuildSpec) (spilled : ℕ)
    (records : List (RunRecord κ)) (prepared : PreparedRuns κ)
    (groups : List (PostingEntry κ)) : Prop :=
  ∃ builder, (IndexRunBuilder.new spilled).pushAll K crc spec records = .ok builder ∧
    builder.prepare K crc spec = .ok prepared ∧
    prepared.Streams K crc spec.maximumFragmentRows groups

def Produces (K : RunKind κ) (crc : Crc) (spec : BuildSpec) (spilled : ℕ)
    (records : List (RunRecord κ)) (groups : List (PostingEntry κ)) : Prop :=
  ∃ prepared, ProducesFrom K crc spec spilled records prepared groups

/-- The build keeps everything in memory. -/
def ProducesInMemory (K : RunKind κ) (crc : Crc) (spec : BuildSpec) (spilled : ℕ)
    (records : List (RunRecord κ)) (groups : List (PostingEntry κ)) : Prop :=
  ∃ prepared, (∀ files, prepared ≠ .files files) ∧
    ProducesFrom K crc spec spilled records prepared groups

/-- The postings of a build are sorted by key, have every record once, and are chained. -/
def Complete (K : RunKind κ) (rank : κ → P) (spec : BuildSpec) (records : List (RunRecord κ))
    (groups : List (PostingEntry κ)) : Prop :=
  ∃ sorted, (sorted.map (stored K)).Perm ((kept K spec.unique records).map (stored K)) ∧
    Postings K rank spec.maximumFragmentRows sorted groups

/-- Builds of the records do not depend on their limits, but for where postings are cut. -/
structure SpillsAlike (K : RunKind κ) (rank : κ → P) (crc : Crc) (unique : Bool)
    (records : List (RunRecord κ)) : Prop where
  complete : ∀ spec spilled groups, spec.unique = unique →
    Produces K crc spec spilled records groups → Complete K rank spec records groups
  joined_eq : ∀ spec spec' spilled spilled' groups groups', spec.unique = unique →
    spec'.unique = unique →
    Produces K crc spec spilled records groups → Produces K crc spec' spilled' records groups' →
    joined join (groups.map (storedEntry K)) = joined join (groups'.map (storedEntry K))
  same : ∀ spec spec' spilled spilled' groups groups', spec.unique = unique →
    spec'.unique = unique → spec.maximumFragmentRows = spec'.maximumFragmentRows →
    Produces K crc spec spilled records groups → Produces K crc spec' spilled' records groups' →
    groups.map (storedEntry K) = groups'.map (storedEntry K)

theorem maximumFragmentRows_pos (spec : BuildSpec) : 0 < spec.maximumFragmentRows := by
  have hbytes := spec.pageLimits.bytes.1
  simp only [IndexPage.pageHeaderBytes] at hbytes
  unfold BuildSpec.maximumFragmentRows
  omega

/-- Records of different rows, as they are pushed. -/
structure Increasing (records : List (RunRecord κ)) : Prop where
  pairwise : (records.map (·.rowOrdinal)).Pairwise (· < ·)
  lt : ∀ r ∈ records, r.rowOrdinal < 2 ^ 64

theorem Increasing.nodup_kept (h : Increasing records) (unique : Bool) :
    ((kept K unique records).map (·.rowOrdinal)).Nodup :=
  (h.pairwise.imp fun h => Nat.ne_of_lt h).sublist (filter_sublist.map _)

theorem ProducesFrom.streams (hK : Lawful K rank) (hinc : Increasing records) {spilled : ℕ}
    (hkeeps : (∀ files, prepared ≠ .files files) ∨ KeepsRuns K spec (kept K spec.unique records))
    (h : ProducesFrom K crc spec spilled records prepared groups) :
    Prepared K crc spec (kept K spec.unique records) prepared ∧
      prepared.Streams K crc spec.maximumFragmentRows groups := by
  obtain ⟨builder, hpush, hprepare, hstreams⟩ := h
  have hnew : Builds K crc spec (kept K spec.unique []) _ [] := Builds.new K crc spec spilled
  obtain ⟨lists, hbuilds⟩ := hnew.pushAll hK hinc.lt hpush
  exact ⟨hbuilds.prepare hK hkeeps (fun r hr => hinc.lt r (mem_filter.mp hr).1) hprepare, hstreams⟩

theorem Produces.of_sorted (hK : Lawful K rank) (hinc : Increasing records) {spilled : ℕ}
    (hkeeps : KeepsOrder K (kept K spec.unique records))
    (h : Produces K crc spec spilled records groups)
    (hperm : sorted.Perm (kept K spec.unique records)) (hsorted : InOrder K sorted) :
    ∃ groups', Reads (nextGroup K memoryRecords spec.maximumFragmentRows) ⟨sorted, none⟩ groups' ∧
      groups.map (storedEntry K) = groups'.map (storedEntry K) ∧
      Complete K rank spec records groups := by
  obtain ⟨prepared, h⟩ := h
  have hmax := maximumFragmentRows_pos spec
  have hnodup := hinc.nodup_kept (K := K) spec.unique
  have hruns : KeepsRuns K spec (kept K spec.unique records) := fun l _ hmem hl =>
    inOrder_asRead hkeeps hmem hl
  obtain ⟨hprep, hstreams⟩ := h.streams hK hinc (.inr hruns)
  by_cases hno : ∀ files, prepared ≠ .files files
  · obtain ⟨l, -, hl⟩ := streams_memory hno hprep hstreams
    obtain rfl := eq_of_inOrder hK (hl.perm.trans hperm.symm)
      ((hl.perm.map _).nodup_iff.mpr hnodup) hl.inOrder hsorted
    exact ⟨groups, hl.reads, rfl, l, hperm.map _, .of_reads hK hmax hl.reads hsorted⟩
  · obtain ⟨files, hfiles⟩ := not_forall.mp hno
    rw [not_not.mp hfiles] at hprep hstreams
    obtain ⟨l, hl⟩ := streams_files hK hprep hstreams
    have hmem : ∀ r ∈ sorted, r ∈ kept K spec.unique records := fun r hr => hperm.mem_iff.mp hr
    have hread := inOrder_asRead hkeeps hmem hsorted
    obtain rfl : l = sorted.map (readOf K) := by
      refine eq_of_inOrder hK (hl.perm.trans (hperm.map _).symm) ?_ hl.inOrder hread
      rw [(hl.perm.map _).nodup_iff, map_map]
      exact hnodup
    obtain ⟨groups', hreads, rfl⟩ := reads_asRead hkeeps hmem (c := none) nofun hl.reads
    refine ⟨groups', hreads, storedEntry_asRead hK groups', sorted.map (readOf K), ?_,
      .of_reads hK hmax hl.reads hread⟩
    have hstored : (sorted.map (readOf K)).map (stored K) = sorted.map (stored K) := by
      rw [map_map]
      refine map_congr_left fun r _ => ?_
      obtain ⟨hbytes, hnull⟩ := keyAsRead_bytes hK r.key
      simp only [Function.comp_apply, stored, readOf, hbytes, hnull]
    rw [hstored]
    exact hperm.map _

/-- **Builds of records whose keys compare the same as they are read.** -/
theorem spillsAlike_of_keepsOrder (hK : Lawful K rank) (crc : Crc) {unique : Bool}
    (hinc : Increasing records) (hkeeps : KeepsOrder K (kept K unique records)) :
    SpillsAlike K rank crc unique records := by
  have hperm := mergeSort_perm (kept K unique records) fun a b => a.compare K b != .gt
  have hsorted := inOrder_mergeSort hK (kept K unique records)
  refine ⟨fun spec spilled groups huniq h => ?_,
    fun spec spec' _ _ groups groups' huniq huniq' h h' => ?_,
    fun spec spec' _ _ groups groups' huniq huniq' hmaximum h h' => ?_⟩
  · subst huniq
    obtain ⟨-, -, -, hcompl⟩ := h.of_sorted hK hinc hkeeps hperm hsorted
    exact hcompl
  all_goals
    subst huniq
    obtain ⟨memory, hmem, heq, -⟩ := h.of_sorted hK hinc hkeeps hperm hsorted
    obtain ⟨memory', hmem', heq', -⟩ := h'.of_sorted hK hinc (by rwa [huniq'])
      (by rw [huniq']; exact hperm) hsorted
    rw [heq, heq']
  · rw [joined_storedEntry, joined_storedEntry, joined_postings hK hmem, joined_postings hK hmem']
  · rw [← hmaximum] at hmem'
    rw [hmem.unique hmem']

/-! ## One record in a file -/

theorem compare_eq_iff (hK : Lawful K rank) (a b a' b' : κ) : K.compare a b = K.compare a' b' ↔
    (rank a < rank b ↔ rank a' < rank b') ∧ (rank a = rank b ↔ rank a' = rank b') := by
  simp only [← hK.lt_iff, ← hK.eq_iff]
  cases K.compare a b <;> cases K.compare a' b' <;> simp

/-- The keys of two records compare the same as they are read. -/
def Agree (K : RunKind κ) (a b : RunRecord κ) : Prop :=
  K.compare (keyAsRead K a.key) (keyAsRead K b.key) = K.compare a.key b.key

theorem agree_trans {x y z x' y' z' : P} (hxy : x ≤ y) (hyz : y ≤ z) (hxy' : x' ≤ y')
    (hyz' : y' ≤ z') (h : x' = y' ↔ x = y) (h' : y' = z' ↔ y = z) :
    (x' < z' ↔ x < z) ∧ (x' = z' ↔ x = z) := by
  have heq : x' = z' ↔ x = z := by
    constructor
    · rintro rfl
      have hy := le_antisymm hyz' hxy'
      exact (h.mp hy.symm).trans (h'.mp hy)
    · rintro rfl
      have hy := le_antisymm hyz hxy
      exact (h.mpr hy.symm).trans (h'.mpr hy)
  exact ⟨by rw [(hxy.trans hyz).lt_iff_ne, (hxy'.trans hyz').lt_iff_ne, ne_eq, ne_eq, heq], heq⟩

theorem rank_le (hK : Lawful K rank) {a b : RunRecord κ} (h : before K b a = false) :
    rank a.key ≤ rank b.key := by
  rcases Prod.Lex.toLex_le_toLex.mp ((not_before_iff hK a b).mp h) with hlt | ⟨heq, -⟩
  · exact hlt.le
  · exact heq.le

theorem Agree.symm (hK : Lawful K rank) {a b : RunRecord κ} (h : Agree K a b) : Agree K b a := by
  rw [Agree, compare_eq_iff hK, ← hK.gt_iff, ← hK.gt_iff, h]
  refine ⟨Iff.rfl, ?_⟩
  rw [eq_comm, ← hK.eq_iff, h, hK.eq_iff, eq_comm]

variable {l l' : List (RunRecord κ)} {groups' : List (PostingEntry κ)}

theorem flatMap_storedRecords (groups : List (PostingEntry κ)) :
    groups.flatMap (storedRecords K) = (groups.map (storedEntry K)).flatMap
      fun e => e.rows.map fun row => (e.key.1, e.key.2, row) := by
  rw [flatMap_map]
  rfl

/-- Rows tell which records were read. -/
theorem eq_map_readOf (hrows : (all.map (·.rowOrdinal)).Nodup) (hl : l.Perm all)
    (hl' : l'.Perm (all.map (readOf K))) (hsame : l.map (stored K) = l'.map (stored K)) :
    l' = l.map (readOf K) := by
  have hordinals : l.map (·.rowOrdinal) = l'.map (·.rowOrdinal) := by
    simpa [stored, Function.comp_def] using congrArg (map fun s => s.2.2) hsame
  refine ext_getElem (by simpa using (congrArg length hsame).symm) fun i hi hi' => ?_
  obtain ⟨r, hr, hri⟩ := mem_map.mp (hl'.mem_iff.mp (getElem_mem hi))
  have hli : i < l.length := by simpa using hi'
  have hrow : l[i].rowOrdinal = r.rowOrdinal := by
    have hat : (l.map (·.rowOrdinal))[i]? = (l'.map (·.rowOrdinal))[i]? := by rw [hordinals]
    simpa [hi, hli, ← hri, readOf] using hat
  have hl : l[i] ∈ all := hl.mem_iff.mp (getElem_mem hli)
  rw [getElem_map, inj_on_of_nodup_map hrows hl hr hrow, hri]

/-- **If the postings are the same, keys compare the same.** Records of one posting have equal keys
in both builds, and a posting is continued by the next one in both or in none. -/
theorem agree_of_same (hK : Lawful K rank) {maximum maximum' : ℕ} {c c' : Option (κ × ℕ)}
    (hin : InOrder K l) (hin' : InOrder K (l.map (readOf K)))
    (h : Reads (nextGroup K memoryRecords maximum) ⟨l, c⟩ groups)
    (h' : Reads (nextGroup K memoryRecords maximum') ⟨l.map (readOf K), c'⟩ groups')
    (hsame : groups.map (storedEntry K) = groups'.map (storedEntry K)) :
    l.Pairwise (Agree K) := by
  induction groups generalizing l c c' groups' with
  | nil =>
    obtain ⟨rfl, -⟩ := postings_nil h
    exact .nil
  | cons group groups ih =>
    cases groups' with
    | nil => cases hsame
    | cons group' groups' =>
      rw [map_cons, map_cons, cons.injEq] at hsame
      obtain ⟨rest, d, first, taken, hstep, hrest⟩ := postings_cons h
      obtain ⟨rest', d', first', taken', hstep', hrest'⟩ := postings_cons h'
      obtain ⟨hgroup, hsame⟩ := hsame
      rw [hstep.group_eq, hstep'.group_eq] at hgroup
      obtain ⟨-, hrows, hstate⟩ := PageEntry.mk.inj hgroup
      have hnext := (PostingFragmentState.mk.inj hstate).2
      have hlen : (taken.map (readOf K)).length = taken'.length := by
        simpa using congrArg length hrows
      have hlist := hstep'.list_eq
      rw [hstep.list_eq, map_cons, map_append, cons.injEq] at hlist
      obtain ⟨rfl, htail⟩ := hlist
      obtain ⟨rfl, rfl⟩ := append_inj htail hlen
      have hl : l = (first :: taken) ++ rest := hstep.list_eq
      rw [hl] at hin hin' ⊢
      rw [map_append] at hin'
      obtain ⟨-, hinRest, hcross⟩ := pairwise_append.mp hin
      obtain ⟨-, hinRest', hcross'⟩ := pairwise_append.mp hin'
      have hrestAgree := ih hinRest hinRest' hrest hrest' hsame
      have hblock : ∀ a ∈ first :: taken, rank a.key = rank first.key ∧
          rank (keyAsRead K a.key) = rank (keyAsRead K first.key) := by
        refine forall_mem_cons.mpr ⟨⟨rfl, rfl⟩, fun a ha => ⟨?_, ?_⟩⟩
        · exact ((hK.eq_iff _ _).mp (hstep.same a ha)).symm
        · exact ((hK.eq_iff _ _).mp (hstep'.same _ (mem_map_of_mem ha))).symm
      refine pairwise_append.mpr ⟨?_, hrestAgree, fun a ha b hb => ?_⟩
      · refine pairwise_of_forall_mem_list fun a ha b hb => ?_
        obtain ⟨ha, ha'⟩ := hblock a ha
        obtain ⟨hb, hb'⟩ := hblock b hb
        rw [Agree, (hK.eq_iff _ _).mpr (ha.trans hb.symm), (hK.eq_iff _ _).mpr (ha'.trans hb'.symm)]
      · -- `b` is reached from the block over the first record behind it
        obtain ⟨ha, ha'⟩ := hblock a ha
        rw [Agree, compare_eq_iff hK, ha, ha']
        cases rest with
        | nil => cases hb
        | cons y ys =>
          have hy : rank (keyAsRead K first.key) = rank (keyAsRead K y.key) ↔
              rank first.key = rank y.key := by
            have hstarts : (K.compare first.key y.key == .eq) =
              (K.compare (keyAsRead K first.key) (keyAsRead K y.key) == .eq) := hnext
            rw [← hK.eq_iff, ← hK.eq_iff, ← beq_iff_eq, ← hstarts, beq_iff_eq]
          have hle := rank_le hK (hcross first mem_cons_self y mem_cons_self)
          have hle' : rank (keyAsRead K first.key) ≤ rank (keyAsRead K y.key) :=
            rank_le hK (hcross' (readOf K first) mem_cons_self (readOf K y) mem_cons_self)
          obtain rfl | hb := mem_cons.mp hb
          · exact agree_trans hle le_rfl hle' le_rfl hy (iff_of_true rfl rfl)
          · have hyb := (compare_eq_iff hK _ _ _ _).mp ((pairwise_cons.mp hrestAgree).1 b hb)
            have hleb' : rank (keyAsRead K y.key) ≤ rank (keyAsRead K b.key) :=
              rank_le hK ((pairwise_cons.mp hinRest').1 (readOf K b) (mem_map_of_mem hb))
            exact agree_trans hle (rank_le hK ((pairwise_cons.mp hinRest).1 b hb)) hle' hleb' hy
              hyb.2

/-- **A build in memory and one with a file for every record** give the same postings exactly if
keys compare the same as they are read. -/
theorem same_iff_keepsOrder (hK : Lawful K rank) {unique : Bool} (hinc : Increasing records)
    {spec' : BuildSpec} {spilled spilled' : ℕ} (huniq : spec.unique = unique)
    (huniq' : spec'.unique = unique) (hmax : spec.maximumFragmentRows = spec'.maximumFragmentRows)
    (hmem : ProducesInMemory K crc spec spilled records groups)
    (hone : spec'.limits.sortRunRecords = 1) (h' : Produces K crc spec' spilled' records groups') :
    groups.map (storedEntry K) = groups'.map (storedEntry K) ↔
      KeepsOrder K (kept K unique records) := by
  obtain ⟨prepared, hno, hfrom⟩ := hmem
  constructor
  · intro hsame
    obtain ⟨prepared', hfrom'⟩ := h'
    obtain ⟨hprep, hstreams⟩ := hfrom.streams hK hinc (.inl hno)
    obtain ⟨hprep', hstreams'⟩ := hfrom'.streams hK hinc (.inr (keepsRuns_of_one hone))
    rw [huniq] at hprep
    rw [huniq'] at hprep'
    obtain ⟨l, -, hl⟩ := streams_memory hno hprep hstreams
    suffices hagree : l.Pairwise (Agree K) by
      have : Std.Symm (Agree K) := ⟨fun a b hab => hab.symm hK⟩
      have hrefl : ∀ a ∈ l, Agree K a a := fun a _ =>
        ((hK.eq_iff _ _).mpr rfl).trans ((hK.eq_iff _ _).mpr rfl).symm
      exact fun a ha b hb => hagree.forall_of_forall hrefl (hl.perm.mem_iff.mpr ha)
        (hl.perm.mem_iff.mpr hb)
    by_cases hno' : ∀ files, prepared' ≠ .files files
    · obtain ⟨l', hshort, hl'⟩ := streams_memory hno' hprep' hstreams'
      rw [hone, (hl'.perm.trans hl.perm.symm).length_eq] at hshort
      obtain _ | ⟨r, _ | ⟨s, l⟩⟩ := l
      · exact .nil
      · exact pairwise_singleton _ _
      · simp at hshort
    · obtain ⟨files, hfiles⟩ := not_forall.mp hno'
      rw [not_not.mp hfiles] at hprep' hstreams'
      obtain ⟨l', hl'⟩ := streams_files hK hprep' hstreams'
      have hpos := maximumFragmentRows_pos
      have hrecords : l.map (stored K) = l'.map (stored K) := by
        rw [← (Postings.of_reads hK (hpos spec) hl.reads hl.inOrder).records,
          ← (Postings.of_reads hK (hpos spec') hl'.reads hl'.inOrder).records,
          flatMap_storedRecords, flatMap_storedRecords, hsame]
      obtain rfl := eq_map_readOf (hinc.nodup_kept unique) hl.perm hl'.perm hrecords
      exact agree_of_same hK hl.inOrder hl'.inOrder hl.reads hl'.reads hsame
  · intro hkeeps
    have halike := spillsAlike_of_keepsOrder hK crc hinc hkeeps
    exact halike.same spec spec' spilled spilled' groups groups' huniq huniq' hmax
      ⟨prepared, hfrom⟩ h'

end

/-! ## Exact and ordered keys -/

theorem keyAsRead_exact (key : ExactRunKey) : keyAsRead exactRuns key = key := by
  have hread : readKey exactRuns key = .ok key := by
    simp [readKey, exactRuns, dif_pos key.2, ok_bind]
  rw [keyAsRead, hread]

theorem keepsOrder_exact (records : List (RunRecord ExactRunKey)) :
    KeepsOrder exactRuns records := fun a _ b _ => by
  rw [keyAsRead_exact, keyAsRead_exact]

section

variable {std : LowerExp} {json : Json} {columns : List IndexKeyColumn}

/-- An ordered key is read at its place, unless it has an instant in a leap second. -/
theorem orderedRank_asRead (hne : columns ≠ []) {key : OrderedRunKey json columns}
    (hleap : ∀ v ∈ key.1.values, v.inLeapSecond = false) :
    orderedRank columns (keyAsRead (orderedRuns std json columns) key) =
      orderedRank columns key := by
  unfold keyAsRead
  cases hread : readKey (orderedRuns std json columns) key with
  | error e => rfl
  | ok read =>
    obtain ⟨k, hof, hread⟩ := ok_of_bind hread
    split_ifs at hread
    cases hread
    simp only [orderedRuns] at hof
    split at hof
    · cases hof
    · rename_i values hasNull hdec
      cases hof
      obtain ⟨-, heq⟩ := (key.2.decode_iff hne _).mp hdec
      obtain ⟨rfl, -⟩ := Prod.mk.inj heq
      exact congrArg (fun places => toLex (places, key.1.bytes)) (keyPlace_stored hleap)

theorem keepsOrder_ordered (hne : columns ≠ []) (ho : Ordered columns)
    {records : List (RunRecord (OrderedRunKey json columns))}
    (hleap : ∀ r ∈ records, ∀ v ∈ r.key.1.values, v.inLeapSecond = false) :
    KeepsOrder (orderedRuns std json columns) records := fun a ha b hb => by
  show compareOrderedKeysTrusted std _ _ columns = compareOrderedKeysTrusted std _ _ columns
  rw [compareTrusted_eq ho, compareTrusted_eq ho, orderedRank_asRead hne (hleap a ha),
    orderedRank_asRead hne (hleap b hb)]

end

/-- **Spilling does not change a build** of an exact accelerator, nor one of an ordered accelerator
if the keys that are not skipped compare the same as they are read, which they do if none has an
instant in a leap second: postings are sorted by key, have every record once and are chained; they
are the same for all limits that admit as many rows in a fragment, and otherwise but for where they
are cut. The condition is needed: a build in memory and one that puts every record into a file of
its own give the same postings only if keys compare the same. Consolidation always ends. -/
theorem spilling_keeps_postings_iff (crc : Bytes → UInt32) :
    (∀ (unique : Bool) (records : List (RunRecord ExactRunKey)), Increasing records →
      SpillsAlike exactRuns exactRank crc unique records) ∧
    (∀ (std : LowerExp) (json : Bytes → Option String) (columns : List IndexKeyColumn)
      (unique : Bool) (records : List (RunRecord (OrderedRunKey json columns))),
      columns ≠ [] → Ordered columns → Increasing records →
      let K := orderedRuns std json columns
      ((∀ r ∈ kept K unique records, ∀ v ∈ r.key.1.values, v.inLeapSecond = false) →
        KeepsOrder K (kept K unique records)) ∧
      (KeepsOrder K (kept K unique records) →
        SpillsAlike K (orderedRank columns) crc unique records) ∧
      ∀ spec spec' spilled spilled' groups groups', spec.unique = unique → spec'.unique = unique →
        spec.maximumFragmentRows = spec'.maximumFragmentRows →
        ProducesInMemory K crc spec spilled records groups → spec'.limits.sortRunRecords = 1 →
        Produces K crc spec' spilled' records groups' →
        (groups.map (storedEntry K) = groups'.map (storedEntry K) ↔
          KeepsOrder K (kept K unique records))) ∧
    ∀ (κ : Type) (K : RunKind κ) (limits : FanoutBuildLimits) (files : List Bytes) (used : ℕ),
      (consolidatePasses K crc limits files.length files used).isSome = true := by
  refine ⟨fun unique records hinc => ?_, fun std json columns unique records hne ho hinc => ?_,
    fun κ K limits files used => ?_⟩
  · exact spillsAlike_of_keepsOrder lawful_exact crc hinc (keepsOrder_exact _)
  · have hK : Lawful (orderedRuns std json columns) (orderedRank columns) := lawful_ordered hne ho
    refine ⟨keepsOrder_ordered hne ho, spillsAlike_of_keepsOrder hK crc hinc, ?_⟩
    intro spec spec' spilled spilled' groups groups' huniq huniq' hmax hmem hone h'
    exact same_iff_keepsOrder hK hinc huniq huniq' hmax hmem hone h'
  · exact consolidatePasses_isSome K crc limits (Nat.le_refl _) used

/-- A build that keeps `records` records in memory. -/
def smallBuild (records : ℕ) (h : 0 < records ∧ records ≤ maxSortRunRecords) : BuildSpec where
  limits := ⟨records, maxIndexKeyBytes, 8, 2, 4096, h, by decide, by decide, by decide⟩
  unique := false
  anyNullable := false
  recordSize := 64
  residentByteBudget := 4096
  pageLimits := OrderedScan.sampleLimits

/-- A key of an exact accelerator of one byte. -/
def byteKey (byte : UInt8) : ExactRunKey :=
  ⟨⟨[byte], false⟩, Nat.zero_lt_one, show 1 ≤ maxIndexKeyBytes by decide⟩

/-- Two rows have the key 7 and one has the key 9. -/
def byteRecords : List (RunRecord ExactRunKey) := [⟨byteKey 7, 0⟩, ⟨byteKey 7, 1⟩, ⟨byteKey 9, 2⟩]

/-- Three records, in memory and with three files, of which two are merged first. -/
theorem spilling_keeps_postings_iff_three :
    ∃ groups groups', Produces exactRuns (fun _ => 0) (smallBuild 4 (by decide)) 0
        byteRecords groups ∧
      Produces exactRuns (fun _ => 0) (smallBuild 1 (by decide)) 0 byteRecords groups' ∧
      groups.map (storedEntry exactRuns) = groups'.map (storedEntry exactRuns) := by
  have halike := (spilling_keeps_postings_iff fun _ => 0).1 false byteRecords
    ⟨by decide, by decide⟩
  have hmem : Produces exactRuns (fun _ => 0) (smallBuild 4 (by decide)) 0 byteRecords
      [⟨byteKey 7, [0, 1], .complete⟩, ⟨byteKey 9, [2], .complete⟩] :=
    ⟨_, _, rfl, rfl, .more rfl (.more rfl (.done rfl))⟩
  have hfiles : Produces exactRuns (fun _ => 0) (smallBuild 1 (by decide)) 0 byteRecords
      [⟨byteKey 7, [0, 1], .complete⟩, ⟨byteKey 9, [2], .complete⟩] :=
    ⟨_, _, rfl, rfl, _, rfl, .more rfl (.more rfl (.done rfl))⟩
  exact ⟨_, _, hmem, hfiles,
    halike.same (smallBuild 4 _) (smallBuild 1 _) 0 0 _ _ rfl rfl rfl hmem hfiles⟩

/-- An ascending TIMESTAMP column. -/
def instantColumn : IndexKeyColumn := ⟨timestampColumn, .ascending, .last⟩

abbrev TimestampKey := OrderedRunKey (fun _ => none) [instantColumn]

/-- Half a second into a leap second. -/
def leapKey : TimestampKey :=
  ⟨⟨[1, 5, 0, 0, 8, 0, 0, 0, 0, 189, 20, 22, 14, 0, 0, 0],
    [.timestamp ⟨59, 1500000000, by decide⟩], false⟩, by
    rfl⟩

/-- Later, early in the next second. -/
def nextKey : TimestampKey :=
  ⟨⟨[1, 5, 0, 0, 8, 0, 0, 0, 0, 26, 51, 4, 14, 0, 0, 0],
    [.timestamp ⟨60, 200000000, by decide⟩], false⟩, by
    rfl⟩

/-- The instant in the leap second, as it is read. -/
def leapKeyAsRead : TimestampKey :=
  ⟨⟨[1, 5, 0, 0, 8, 0, 0, 0, 0, 189, 20, 22, 14, 0, 0, 0],
    [.timestamp ⟨60, 500000000, by decide⟩], false⟩, by
    rfl⟩

/-- In memory, the instant in the leap second comes first; with files it comes last. -/
theorem spilled_leap_second_moves :
    Produces (orderedRuns .reference (fun _ => none) [instantColumn]) (fun _ => 0)
        (smallBuild 2 (by decide)) 0 [⟨leapKey, 0⟩, ⟨nextKey, 1⟩]
        [⟨leapKey, [0], .complete⟩, ⟨nextKey, [1], .complete⟩] ∧
      Produces (orderedRuns .reference (fun _ => none) [instantColumn]) (fun _ => 0)
        (smallBuild 1 (by decide)) 0 [⟨leapKey, 0⟩, ⟨nextKey, 1⟩]
        [⟨nextKey, [1], .complete⟩, ⟨leapKeyAsRead, [0], .complete⟩] :=
  ⟨⟨_, _, rfl, rfl, .more rfl (.more rfl (.done rfl))⟩,
    ⟨_, _, rfl, rfl, _, rfl, .more rfl (.more rfl (.done rfl))⟩⟩

end RadixDb.Runs

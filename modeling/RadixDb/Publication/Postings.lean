import RadixDb.Index.Joining
import RadixDb.Publication.RunsMerged

/-!
# Postings of sorted records

Whatever source records come from, the postings are those that a list of the same records gives
(`reads_groups`). What a posting takes from a list is a step (`Step`), and the postings of a list
are a chain of steps, so what holds of them is proved by going through the steps: **each record is
in one posting, of its key; no fragment is longer than the maximum; fragments say correctly what
comes before and after them** (`postings_spec`).

The maximum only decides where postings are cut: **joined, the fragments are the same for every
maximum** (`joined_postings`). And postings depend on keys only by how they compare: **if reading
keys does not change that, records as they are read give the postings of the records, as they are
read** (`reads_asRead`).
-/

namespace RadixDb.Runs

open List IndexPage

section

variable {κ σ : Type} {K : RunKind κ} {S : RecordSource κ σ}

/-- A source shows the record that it gives next. -/
structure Peeks (S : RecordSource κ σ) : Prop where
  of_some : ∀ {s a s'}, S.pop s = .ok (some (a, s')) → S.peek s = some a
  of_none : ∀ {s}, S.pop s = .ok none → S.peek s = none

variable {s : σ}

theorem Peeks.head_eq (hS : Peeks S) {l : List (RunRecord κ)} (h : Reads S.pop s l) :
    S.peek s = l.head? := by
  cases h with
  | done hpop => exact hS.of_none hpop
  | more hpop _ => exact hS.of_some hpop

theorem peeks_merged {P : Type} [LinearOrder P] {rank : κ → P} (hK : Lawful K rank)
    (crc : Crc) : Peeks (mergedRecords K crc) := by
  have hcases : ∀ {merger : RunMerger κ} {r : Option (RunRecord κ × RunMerger κ)},
      RunMerger.popRecord K crc merger = .ok r →
      (Merge.least (before K) (merger.map (·.head))).map Prod.snd = r.map Prod.fst := by
    intro merger r hpop
    obtain ⟨rfl, hleast, -⟩ | ⟨i, a, run, run', rfl, hleast, -⟩ :=
      Merge.pop_cases (before_iff hK) hpop <;> rw [hleast] <;> rfl
  exact ⟨fun h => hcases h, fun h => hcases h⟩

/-- The rows that are taken from a source are those that are taken from a list. -/
theorem takeRows_reads (hS : Peeks S) {key : κ} {budget : ℕ} {rows rows' : List ℕ} {s' : σ}
    {l' : List (RunRecord κ)} (h : takeRows K S key budget rows s = .ok (rows', s'))
    (hl' : Reads S.pop s' l') :
    ∃ l, Reads S.pop s l ∧ takeRows K memoryRecords key budget rows l = .ok (rows', l') := by
  induction budget generalizing rows s with
  | zero =>
    cases h
    exact ⟨l', hl', rfl⟩
  | succ budget ih =>
    rw [takeRows] at h
    cases hpeek : S.peek s with
    | none =>
      rw [hpeek] at h
      cases h
      refine ⟨l', hl', ?_⟩
      have hhead := hS.head_eq hl'
      rw [hpeek] at hhead
      simp only [takeRows, memoryRecords, ← hhead]
    | some next =>
      rw [hpeek] at h
      dsimp only at h
      by_cases hkey : K.compare key next.key ≠ .eq
      · cases (if_pos hkey).symm.trans h
        refine ⟨l', hl', ?_⟩
        have hhead := hS.head_eq hl'
        rw [hpeek] at hhead
        simp only [takeRows, memoryRecords, ← hhead, if_pos hkey]
      · rw [if_neg hkey] at h
        obtain ⟨r, hpop, h⟩ := ok_of_bind h
        cases r with
        | none =>
          cases (hS.of_none hpop).symm.trans hpeek
        | some r =>
          obtain ⟨record, rest⟩ := r
          obtain rfl : record = next := Option.some.inj ((hS.of_some hpop).symm.trans hpeek)
          dsimp only at h
          split_ifs at h with hrow
          obtain ⟨l, hl, htake⟩ := ih h
          refine ⟨record :: l, .more hpop hl, ?_⟩
          simp only [takeRows, memoryRecords, head?_cons, if_neg hkey, ok_bind, hrow]
          exact htake

theorem checkContinuation_ok {σ' : Type} {S : RecordSource κ σ} (S' : RecordSource κ σ')
    {continuation : Option (κ × ℕ)} {first : RunRecord κ} {b : Bool}
    (h : checkContinuation K S continuation first = .ok b) :
    checkContinuation K S' continuation first = .ok b := by
  cases continuation with
  | none => exact h
  | some p =>
    simp only [checkContinuation] at h ⊢
    split_ifs at h ⊢
    exact h

variable {c : Option (κ × ℕ)} {maximum : ℕ}

theorem nextGroup_none (h : nextGroup K S maximum ⟨s, c⟩ = .ok none) :
    S.pop s = .ok none ∧ c = none := by
  obtain ⟨popped, hpop, h⟩ := ok_of_bind h
  cases popped with
  | none =>
    split_ifs at h with hc
    exact ⟨hpop, Option.not_isSome_iff_eq_none.mp hc⟩
  | some popped =>
    obtain ⟨hasPrevious, -, h⟩ := ok_of_bind h
    obtain ⟨taken, -, h⟩ := ok_of_bind h
    cases h

theorem nextGroup_some {r : PostingEntry κ × GroupState κ σ}
    (h : nextGroup K S maximum ⟨s, c⟩ = .ok (some r)) :
    ∃ first rest hasPrevious rows rest', S.pop s = .ok (some (first, rest)) ∧
      checkContinuation K S c first = .ok hasPrevious ∧
      takeRows K S first.key (maximum - 1) [first.rowOrdinal] rest = .ok (rows, rest') ∧
      let hasNext := (S.peek rest').any fun next => K.compare first.key next.key == .eq
      r = (⟨first.key, rows, ⟨hasPrevious, hasNext⟩⟩,
        ⟨rest', if hasNext then rows.getLast?.map fun row => (first.key, row) else none⟩) := by
  obtain ⟨popped, hpop, h⟩ := ok_of_bind h
  cases popped with
  | none =>
    split_ifs at h
    cases h
  | some popped =>
    obtain ⟨first, rest⟩ := popped
    obtain ⟨hasPrevious, hcheck, h⟩ := ok_of_bind h
    obtain ⟨taken, htake, h⟩ := ok_of_bind h
    cases h
    exact ⟨first, rest, hasPrevious, taken.1, taken.2, hpop, hcheck, htake, rfl⟩

/-- **The postings of a source** are the postings of the list of its records. -/
theorem reads_groups (hS : Peeks S) {groups : List (PostingEntry κ)}
    (h : Reads (nextGroup K S maximum) ⟨s, c⟩ groups) :
    ∃ l, Reads S.pop s l ∧ Reads (nextGroup K memoryRecords maximum) ⟨l, c⟩ groups := by
  generalize hstate : (⟨s, c⟩ : GroupState κ σ) = state at h
  induction h generalizing s c with
  | done hnext =>
    subst hstate
    obtain ⟨hpop, rfl⟩ := nextGroup_none hnext
    exact ⟨[], .done hpop, .done rfl⟩
  | more hnext _ ih =>
    subst hstate
    obtain ⟨first, rest, hasPrevious, rows, rest', hpop, hcheck, htake, hr⟩ := nextGroup_some hnext
    obtain ⟨rfl, rfl⟩ := Prod.mk.inj hr
    obtain ⟨l', hl', hgroups⟩ := ih rfl
    obtain ⟨l, hl, htake'⟩ := takeRows_reads hS htake hl'
    refine ⟨first :: l, .more hpop hl, .more ?_ hgroups⟩
    have hpeek : memoryRecords.peek l' = S.peek rest' := (hS.head_eq hl').symm
    simp only [nextGroup, ok_bind, show memoryRecords.pop (first :: l) = .ok (some
      (first, l)) from rfl, checkContinuation_ok memoryRecords hcheck, htake', hpeek]

end

/-! ## Lists -/

section

variable {κ P : Type} [LinearOrder P] {K : RunKind κ} {rank : κ → P}

/-- Does a list start with the key? -/
def startsWith (K : RunKind κ) (key : κ) (l : List (RunRecord κ)) : Bool :=
  l.head?.any fun next => K.compare key next.key == .eq

variable {l l' : List (RunRecord κ)}

theorem takeRows_list {key : κ} {budget : ℕ} {rows rows' : List ℕ}
    (h : takeRows K memoryRecords key budget rows l = .ok (rows', l')) :
    ∃ taken, l = taken ++ l' ∧ rows' = rows ++ taken.map (·.rowOrdinal) ∧ taken.length ≤ budget ∧
      (∀ r ∈ taken, K.compare key r.key = .eq) ∧
      (startsWith K key l' = true → taken.length = budget) := by
  induction budget generalizing rows l with
  | zero =>
    cases h
    exact ⟨[], rfl, (append_nil _).symm, Nat.le_refl 0, forall_mem_nil _, fun _ => rfl⟩
  | succ budget ih =>
    cases l with
    | nil =>
      cases h
      exact ⟨[], rfl, (append_nil _).symm, Nat.zero_le _, forall_mem_nil _, nofun⟩
    | cons record l =>
      simp only [takeRows, memoryRecords, head?_cons, ok_bind] at h
      by_cases hkey : K.compare key record.key ≠ .eq
      · cases (if_pos hkey).symm.trans h
        exact ⟨[], rfl, (append_nil _).symm, Nat.zero_le _, forall_mem_nil _,
          fun hs => absurd (beq_iff_eq.mp hs) hkey⟩
      · split_ifs at h with hrow
        obtain ⟨taken, rfl, rfl, hlen, hkeys, hfull⟩ := ih h
        refine ⟨record :: taken, rfl, ?_, Nat.succ_le_succ hlen,
          forall_mem_cons.mpr ⟨not_not.mp hkey, hkeys⟩, fun hs => ?_⟩
        · rw [append_assoc, map_cons, singleton_append]
        · rw [length_cons, hfull hs]

/-- What a posting takes from a list of records, after `c`. -/
structure Step (K : RunKind κ) (maximum : ℕ) (l : List (RunRecord κ)) (c : Option (κ × ℕ))
    (group : PostingEntry κ) (l' : List (RunRecord κ)) (c' : Option (κ × ℕ))
    (first : RunRecord κ) (taken : List (RunRecord κ)) : Prop where
  list_eq : l = first :: (taken ++ l')
  group_eq : group = ⟨first.key, first.rowOrdinal :: taken.map (·.rowOrdinal),
    ⟨c.isSome, startsWith K first.key l'⟩⟩
  after_eq : c' = if startsWith K first.key l' then
    group.rowOrdinals.getLast?.map fun row => (first.key, row) else none
  same : ∀ r ∈ taken, K.compare first.key r.key = .eq
  length_le : taken.length ≤ maximum - 1
  full : startsWith K first.key l' = true → taken.length = maximum - 1
  continues : ∀ p ∈ c, K.compare p.1 first.key = .eq ∧ p.2 < first.rowOrdinal

variable {c : Option (κ × ℕ)} {groups : List (PostingEntry κ)} {maximum : ℕ}

/-- The postings of a list, step by step. -/
theorem postings_nil (h : Reads (nextGroup K memoryRecords maximum) ⟨l, c⟩ []) :
    l = [] ∧ c = none := by
  cases h with
  | done hnext =>
    obtain ⟨hpop, rfl⟩ := nextGroup_none hnext
    cases l with
    | nil => exact ⟨rfl, rfl⟩
    | cons first rest => cases hpop

theorem postings_cons
    (h : Reads (nextGroup K memoryRecords maximum) ⟨l, c⟩ (group :: groups)) :
    ∃ l' c' first taken, Step K maximum l c group l' c' first taken ∧
      Reads (nextGroup K memoryRecords maximum) ⟨l', c'⟩ groups := by
  cases h with
  | more hnext hrest =>
    obtain ⟨first, rest, hasPrevious, rows, l', hpop, hcheck, htake, hr⟩ := nextGroup_some hnext
    obtain ⟨rfl, rfl⟩ := Prod.mk.inj hr
    cases l with
    | nil => cases hpop
    | cons first l =>
      cases hpop
      obtain ⟨taken, rfl, rfl, hlen, hsame, hfull⟩ := takeRows_list htake
      have hcont : hasPrevious = c.isSome ∧
          ∀ p ∈ c, K.compare p.1 first.key = .eq ∧ p.2 < first.rowOrdinal := by
        cases c with
        | none => exact ⟨(Except.ok.inj hcheck).symm, nofun⟩
        | some p =>
          simp only [checkContinuation] at hcheck
          split_ifs at hcheck with hkey hrow
          refine ⟨(Except.ok.inj hcheck).symm, fun q hq => ?_⟩
          cases hq
          exact ⟨not_not.mp hkey, not_le.mp hrow⟩
      refine ⟨l', _, first, taken, ⟨rfl, ?_, rfl, hsame, hlen, hfull, hcont.2⟩, hrest⟩
      rw [hcont.1]
      rfl

/-- Postings as pieces of what a key has. -/
def postingMarks (rank : κ → P) : Marks (PostingEntry κ) P where
  key g := rank g.key
  hasPrevious g := g.fragmentState.hasPrevious
  hasNext g := g.fragmentState.hasNext
  joins a b := ∀ last ∈ a.rowOrdinals.getLast?, last < b.rowOrdinals.headD 0

/-- A record as it is stored. -/
def stored (K : RunKind κ) (r : RunRecord κ) : Bytes × Bool × ℕ :=
  (K.bytes r.key, K.hasNullComponent r.key, r.rowOrdinal)

/-- The records of a posting, as they are stored. -/
def storedRecords (K : RunKind κ) (g : PostingEntry κ) : List (Bytes × Bool × ℕ) :=
  g.rowOrdinals.map fun row => stored K ⟨g.key, row⟩

/-- What postings of sorted records are. -/
structure Postings (K : RunKind κ) (rank : κ → P) (maximum : ℕ) (l : List (RunRecord κ))
    (groups : List (PostingEntry κ)) : Prop where
  records : groups.flatMap (storedRecords K) = l.map (stored K)
  fits : ∀ g ∈ groups, g.rowOrdinals ≠ [] ∧ g.rowOrdinals.length ≤ maximum
  chain : groups.IsChain (postingMarks rank).Next
  starts : ∀ g ∈ groups.head?, g.fragmentState.hasPrevious = false
  ends : ∀ g ∈ groups.getLast?, g.fragmentState.hasNext = false

variable {c' : Option (κ × ℕ)} {first : RunRecord κ} {group : PostingEntry κ}
  {taken : List (RunRecord κ)}

/-- The first posting of a list. -/
theorem Step.head (h : Step K maximum l c group l' c' first taken) :
    group.fragmentState.hasPrevious = c.isSome ∧
      (∀ r ∈ l.head?, group.key = r.key) ∧
      ∀ p ∈ c, K.compare p.1 group.key = .eq ∧ p.2 < group.rowOrdinals.headD 0 := by
  rw [h.group_eq, h.list_eq]
  refine ⟨rfl, fun r hr => ?_, h.continues⟩
  cases hr
  rfl

/-- **What one posting and the next have to do with each other.** -/
theorem Step.next (hK : Lawful K rank) (h : Step K maximum l c group l' c' first taken)
    (hl : InOrder K l) {l'' : List (RunRecord κ)} {c'' : Option (κ × ℕ)} {group' : PostingEntry κ}
    {first' : RunRecord κ} {taken' : List (RunRecord κ)}
    (h' : Step K maximum l' c' group' l'' c'' first' taken') :
    (postingMarks rank).Next group group' := by
  obtain ⟨hprev, hkey, hcont⟩ := h'.head
  have hhead : l'.head? = some first' := by
    rw [h'.list_eq]
    rfl
  have hgroup : group.key = first.key := by rw [h.group_eq]
  have hnext : group.fragmentState.hasNext = startsWith K first.key l' := by rw [h.group_eq]
  have hlast : group.rowOrdinals ≠ [] := by
    rw [h.group_eq]
    exact cons_ne_nil _ _
  cases hstarts : startsWith K first.key l' with
  | true =>
    obtain ⟨row, hrow⟩ : ∃ row, group.rowOrdinals.getLast? = some row :=
      ⟨_, getLast?_eq_some_getLast hlast⟩
    have hc : c' = some (first.key, row) := by
      rw [h.after_eq, if_pos hstarts, hrow]
      rfl
    subst hc
    obtain ⟨hsame, hless⟩ := hcont _ rfl
    refine .inr ⟨?_, hnext.trans hstarts, hprev, fun last hlast' => ?_⟩
    · show rank group.key = rank group'.key
      rw [hgroup]
      exact (hK.eq_iff _ _).mp hsame
    · rw [hrow] at hlast'
      cases hlast'
      exact hless
  | false =>
    have hc : c' = none := by
      rw [h.after_eq, hstarts]
      rfl
    subst hc
    refine .inl ⟨?_, hnext.trans hstarts, hprev⟩
    show rank group.key < rank group'.key
    rw [hgroup, hkey first' hhead]
    have hne : rank first.key ≠ rank first'.key := by
      intro heq
      have htrue : startsWith K first.key l' = true := by
        rw [startsWith, hhead, Option.any_some, beq_iff_eq]
        exact (hK.eq_iff _ _).mpr heq
      cases hstarts.symm.trans htrue
    have hmem : first' ∈ taken ++ l' := by
      rw [h'.list_eq]
      simp
    rw [h.list_eq] at hl
    have hle := (not_before_iff hK _ _).mp ((pairwise_cons.mp hl).1 first' hmem)
    exact lt_of_le_of_ne (Prod.Lex.monotone_fst _ _ hle) hne

/-- **Postings of sorted records.** -/
theorem postings_spec (hK : Lawful K rank) (hmax : 0 < maximum)
    (h : Reads (nextGroup K memoryRecords maximum) ⟨l, c⟩ groups) (hl : InOrder K l) :
    groups.flatMap (storedRecords K) = l.map (stored K) ∧
      (∀ g ∈ groups, g.rowOrdinals ≠ [] ∧ g.rowOrdinals.length ≤ maximum) ∧
      groups.IsChain (postingMarks rank).Next ∧
      (∀ g ∈ groups.head?, g.fragmentState.hasPrevious = c.isSome) ∧
      ∀ g ∈ groups.getLast?, g.fragmentState.hasNext = false := by
  induction groups generalizing l c with
  | nil =>
    obtain ⟨rfl, rfl⟩ := postings_nil h
    exact ⟨rfl, forall_mem_nil _, .nil, nofun, nofun⟩
  | cons group groups ih =>
    obtain ⟨l', c', first, taken, hstep, hrest⟩ := postings_cons h
    have hl' : InOrder K l' := by
      rw [hstep.list_eq] at hl
      exact (pairwise_append.mp (pairwise_cons.mp hl).2).2.1
    obtain ⟨hrecs, hfits, hchain, hhead, hlast⟩ := ih hrest hl'
    refine ⟨?_, forall_mem_cons.mpr ⟨?_, hfits⟩, isChain_cons.mpr ⟨?_, hchain⟩, ?_, ?_⟩
    · have hmine : storedRecords K group = (first :: taken).map (stored K) := by
        rw [hstep.group_eq, storedRecords, map_cons, map_cons, map_map]
        refine congrArg (stored K first :: ·) (map_congr_left fun r hr => ?_)
        obtain ⟨hbytes, hnull⟩ := hK.bytes_eq _ _ ((hK.eq_iff _ _).mp (hstep.same r hr))
        simp only [Function.comp_apply, stored, hbytes, hnull]
      rw [flatMap_cons, hrecs, hmine, hstep.list_eq, ← map_append, cons_append]
    · rw [hstep.group_eq]
      have := hstep.length_le
      refine ⟨cons_ne_nil _ _, ?_⟩
      rw [length_cons, length_map]
      omega
    · intro group' hgroup'
      cases groups with
      | nil => cases hgroup'
      | cons g groups =>
        cases hgroup'
        obtain ⟨_, _, _, _, hstep', -⟩ := postings_cons hrest
        exact hstep.next hK hl hstep'
    · intro g hg
      cases hg
      exact hstep.head.1
    · cases groups with
      | nil =>
        intro g hg
        cases hg
        obtain ⟨rfl, -⟩ := postings_nil hrest
        rw [hstep.group_eq]
        rfl
      | cons g' groups =>
        exact hlast

theorem Postings.of_reads (hK : Lawful K rank) (hmax : 0 < maximum)
    (h : Reads (nextGroup K memoryRecords maximum) ⟨l, none⟩ groups) (hl : InOrder K l) :
    Postings K rank maximum l groups := by
  obtain ⟨hrecs, hfits, hchain, hstarts, hends⟩ := postings_spec hK hmax h hl
  exact ⟨hrecs, hfits, hchain, hstarts, hends⟩

/-! ## The maximum -/

/-- Each record as a fragment of its own. -/
def singles (K : RunKind κ) : Bool → List (RunRecord κ) → List (PageEntry κ)
  | _, [] => []
  | hasPrevious, r :: l =>
    ⟨r.key, [r.rowOrdinal], ⟨hasPrevious, startsWith K r.key l⟩⟩ ::
      singles K (startsWith K r.key l) l

theorem joined_singles (hK : Lawful K rank) (first : RunRecord κ) (taken : List (RunRecord κ))
    (hsame : ∀ r ∈ taken, K.compare first.key r.key = .eq) (l : List (RunRecord κ))
    (hasPrevious : Bool) :
    joined join (singles K hasPrevious (first :: (taken ++ l))) =
      joinCons join ⟨first.key, first.rowOrdinal :: taken.map (·.rowOrdinal),
        ⟨hasPrevious, startsWith K first.key l⟩⟩
        (joined join (singles K (startsWith K first.key l) l)) := by
  induction taken generalizing first hasPrevious with
  | nil => rfl
  | cons r taken ih =>
    have hr := (hK.eq_iff _ _).mp (hsame r mem_cons_self)
    have hnext : startsWith K first.key (r :: (taken ++ l)) = true :=
      beq_iff_eq.mpr (hsame r mem_cons_self)
    have hstarts : startsWith K r.key l = startsWith K first.key l := by
      unfold startsWith
      cases l.head? with
      | none => rfl
      | some next =>
        rw [Option.any_some, Option.any_some, Bool.eq_iff_iff, beq_iff_eq, beq_iff_eq, hK.eq_iff,
          hK.eq_iff, hr]
    have hrest := ih r (fun x hx => (hK.eq_iff _ _).mpr (hr.symm.trans
      ((hK.eq_iff _ _).mp (hsame x (mem_cons_of_mem r hx))))) true
    rw [cons_append, singles, joined, hnext, hrest, hstarts]
    exact joinCons_joinCons joins_join rfl _

/-- **The maximum only decides where postings are cut.** -/
theorem joined_postings (hK : Lawful K rank)
    (h : Reads (nextGroup K memoryRecords maximum) ⟨l, c⟩ groups) :
    joined join (groups.map uncut) = joined join (singles K c.isSome l) := by
  induction groups generalizing l c with
  | nil =>
    obtain ⟨rfl, -⟩ := postings_nil h
    rfl
  | cons group groups ih =>
    obtain ⟨l', c', first, taken, hstep, hrest⟩ := postings_cons h
    have hc : c'.isSome = startsWith K first.key l' := by
      rw [hstep.after_eq, hstep.group_eq]
      cases startsWith K first.key l' with
      | false => rfl
      | true => simp
    rw [map_cons, joined, ih hrest, hc, hstep.list_eq,
      joined_singles hK first taken hstep.same, hstep.group_eq]
    rfl

/-! ## Keys as they are read -/

/-- Reading keys does not change how they compare. -/
def KeepsOrder (K : RunKind κ) (all : List (RunRecord κ)) : Prop :=
  ∀ a ∈ all, ∀ b ∈ all, K.compare (keyAsRead K a.key) (keyAsRead K b.key) = K.compare a.key b.key

/-- A posting of a key as it is read. -/
def postingAsRead (K : RunKind κ) (g : PostingEntry κ) : PostingEntry κ :=
  { g with key := keyAsRead K g.key }

/-- The state of the postings of records as they are read. -/
def stateAsRead (K : RunKind κ) (s : GroupState κ (List (RunRecord κ))) :
    GroupState κ (List (RunRecord κ)) :=
  ⟨s.source.map (readOf K), s.continuation.map fun p => (keyAsRead K p.1, p.2)⟩

variable {all : List (RunRecord κ)}

theorem takeRows_asRead (hkeeps : KeepsOrder K all) (hfirst : first ∈ all)
    (budget : ℕ) (rows : List ℕ) (hl : ∀ r ∈ l, r ∈ all) :
    takeRows K memoryRecords (keyAsRead K first.key) budget rows (l.map (readOf K)) =
      (takeRows K memoryRecords first.key budget rows l).map
        fun r => (r.1, r.2.map (readOf K)) := by
  induction budget generalizing rows l with
  | zero => rfl
  | succ budget ih =>
    cases l with
    | nil => rfl
    | cons r l =>
      have hr := hkeeps first hfirst r (hl r mem_cons_self)
      simp only [takeRows, memoryRecords, map_cons, head?_cons, readOf, hr, ok_bind]
      split_ifs with hkey hrow
      · rfl
      · rfl
      · exact ih _ fun x hx => hl x (mem_cons_of_mem r hx)

/-- **The next posting of records as they are read** is the one of the records, as it is read. -/
theorem nextGroup_asRead (hkeeps : KeepsOrder K all) (maximum : ℕ) (hl : ∀ r ∈ l, r ∈ all)
    (hc : ∀ p ∈ c, ∃ r ∈ all, r.key = p.1) :
    nextGroup K memoryRecords maximum (stateAsRead K ⟨l, c⟩) =
      (nextGroup K memoryRecords maximum ⟨l, c⟩).map
        (Option.map fun r => (postingAsRead K r.1, stateAsRead K r.2)) := by
  cases l with
  | nil => cases c <;> rfl
  | cons first l =>
    have hfirst := hl first mem_cons_self
    have hrest : ∀ r ∈ l, r ∈ all := fun r hr => hl r (mem_cons_of_mem first hr)
    have hcheck : checkContinuation K memoryRecords (c.map fun p => (keyAsRead K p.1, p.2))
        (readOf K first) = checkContinuation K memoryRecords c first := by
      cases c with
      | none => rfl
      | some p =>
        obtain ⟨r, hr, hkey⟩ := hc p rfl
        have hcmp := hkeeps r hr first hfirst
        rw [hkey] at hcmp
        simp only [checkContinuation, Option.map_some, readOf, hcmp]
        rfl
    have htake := takeRows_asRead hkeeps hfirst (maximum - 1) [first.rowOrdinal] hrest
    have hpop : ∀ (r : RunRecord κ) (l : List (RunRecord κ)),
        memoryRecords.pop (r :: l) = .ok (some (r, l)) := fun _ _ => rfl
    simp only [nextGroup, stateAsRead, map_cons, hpop, hcheck, bind, Except.bind]
    cases checkContinuation K memoryRecords c first with
    | error e => rfl
    | ok hasPrevious =>
      simp only [readOf] at htake ⊢
      rw [htake]
      cases htaken : takeRows K memoryRecords first.key (maximum - 1) [first.rowOrdinal] l with
      | error e => rfl
      | ok taken =>
        obtain ⟨rows, l'⟩ := taken
        obtain ⟨taken, rfl, -⟩ := takeRows_list htaken
        have hnext : ((memoryRecords.peek (l'.map (readOf K))).any fun next =>
            K.compare (keyAsRead K first.key) next.key == .eq) =
            (memoryRecords.peek l').any fun next => K.compare first.key next.key == .eq := by
          cases l' with
          | nil => rfl
          | cons next l' =>
            have hcmp := hkeeps first hfirst next (hrest next (by simp))
            simp [memoryRecords, Option.any_some, readOf, hcmp]
        simp only [Except.map, Option.map_some, postingAsRead, hnext,
          apply_ite (Option.map fun p : κ × ℕ => (keyAsRead K p.1, p.2)), Option.map_map]
        rfl

theorem mem_of_nextGroup
    (h : nextGroup K memoryRecords maximum ⟨l, c⟩ = .ok (some (group, ⟨l', c'⟩)))
    (hl : ∀ r ∈ l, r ∈ all) : (∀ r ∈ l', r ∈ all) ∧ ∀ p ∈ c', ∃ r ∈ all, r.key = p.1 := by
  obtain ⟨first, rest, _, rows, _, hpop, -, htake, hr⟩ := nextGroup_some h
  cases hr
  cases l with
  | nil => cases hpop
  | cons first l =>
    cases hpop
    obtain ⟨taken, rfl, -⟩ := takeRows_list htake
    refine ⟨fun r hr => hl r (by simp [hr]), fun p hp => ⟨first, hl first mem_cons_self, ?_⟩⟩
    split_ifs at hp
    · obtain ⟨row, -, rfl⟩ := Option.map_eq_some_iff.mp hp
      rfl
    · cases hp

/-- **Postings of records as they are read** are the postings of the records, as they are read. -/
theorem reads_asRead (hkeeps : KeepsOrder K all) (hl : ∀ r ∈ l, r ∈ all)
    (hc : ∀ p ∈ c, ∃ r ∈ all, r.key = p.1)
    (h : Reads (nextGroup K memoryRecords maximum) (stateAsRead K ⟨l, c⟩) groups) :
    ∃ groups', Reads (nextGroup K memoryRecords maximum) ⟨l, c⟩ groups' ∧
      groups = groups'.map (postingAsRead K) := by
  generalize hstate : stateAsRead K ⟨l, c⟩ = state at h
  induction h generalizing l c with
  | done hnext =>
    subst hstate
    rw [nextGroup_asRead hkeeps maximum hl hc] at hnext
    obtain ⟨r, hread, hnext⟩ := ok_of_bind hnext
    cases r with
    | none => exact ⟨[], .done hread, rfl⟩
    | some r => cases hnext
  | more hnext _ ih =>
    subst hstate
    rw [nextGroup_asRead hkeeps maximum hl hc] at hnext
    obtain ⟨r, hread, hnext⟩ := ok_of_bind hnext
    cases r with
    | none => cases hnext
    | some r =>
      obtain ⟨group, l', c'⟩ := r
      cases hnext
      obtain ⟨hl', hc'⟩ := mem_of_nextGroup hread hl
      obtain ⟨groups', hgroups', rfl⟩ := ih hl' hc' rfl
      exact ⟨group :: groups', .more hread hgroups', rfl⟩

end

end RadixDb.Runs

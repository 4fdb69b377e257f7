import RadixDb.Catalog.Mutation

/-!
# Catalog statements of one transaction

A transaction stages its catalog statements one after another, each on the generation that the ones
before have made. When it commits, the generation it started from and the one it has arrived at are
compared, and their difference is one mutation set (`diffGenerations`).

**This set can be applied to the generation the transaction started from exactly if four things
hold** (`pending_coalesces_iff`): the format of the catalog is no newer than its start and its end
need, no object that was dropped and made again has another kind or place, no revision is the last
one, and the set is not too large. A format that a dropped object needed is kept by the working
generation and refused when the set is applied (`extension_come_and_gone`).
-/

namespace RadixDb.Catalog

open List

variable {P : Type} {rules : GraphRules P}

/-! ## Staging -/

/-- What the binder of a statement asks for. -/
structure DdlDelta (P : Type) where
  mutations : List (CatalogMutation P)
  edgeRemovals : List CatalogEdge
  edgeAdditions : List CatalogEdge

def DdlDelta.isEmpty (delta : DdlDelta P) : Bool :=
  delta.mutations.isEmpty && delta.edgeRemovals.isEmpty && delta.edgeAdditions.isEmpty

def assignCreatedOwner (actor : ObjectId) : CatalogMutation P → CatalogMutation P
  | .create object =>
    if object.id = .BOOTSTRAP_OWNER ∨ object.ownerPrincipalId = actor ∨
        object.kind = .externalType then .create object
    else .create { object with ownerPrincipalId := actor }
  | mutation => mutation

def pushEdgeIfAbsent (edges : List CatalogEdge) (edge : CatalogEdge) : List CatalogEdge :=
  if edge ∈ edges then edges else edges ++ [edge]

def ownedBy (object : CatalogObject P) : CatalogEdge :=
  ⟨object.id, object.ownerPrincipalId, .ownedBy, 0⟩

/-- The edges that follow an owner. -/
def ownershipEdges (generation : CatalogGeneration rules) (delta : DdlDelta P) :
    CatalogMutation P → Except CatalogError (DdlDelta P)
  | .create object =>
    if object.id = .BOOTSTRAP_OWNER then .ok delta
    else .ok { delta with edgeAdditions := pushEdgeIfAbsent delta.edgeAdditions (ownedBy object) }
  | .alter expected replacement =>
    match generation.graph.object expected.objectId with
    | none => .error (.internal "catalog ALTER precondition object disappeared")
    | some current =>
      if current.ownerPrincipalId = replacement.ownerPrincipalId then .ok delta
      else .ok { delta with
        edgeRemovals := pushEdgeIfAbsent delta.edgeRemovals (ownedBy current)
        edgeAdditions := pushEdgeIfAbsent delta.edgeAdditions (ownedBy replacement) }
  | _ => .ok delta

/-- The owner of every object, once the mutations are applied. -/
def ownersAfter (current : CatalogGraph rules) (mutations : List (CatalogMutation P)) :
    List (ObjectId × ObjectId) :=
  mutations.foldl (fun owners mutation =>
    match mutation with
    | .create object | .alter _ object =>
      (object.id, object.ownerPrincipalId) :: owners.filter (·.1 ≠ object.id)
    | .drop expected => owners.filter (·.1 ≠ expected.objectId)
    | .rename _ _ => owners) (current.objects.map fun o => (o.id, o.ownerPrincipalId))

/-- The first mutation that needs a format above the baseline also makes the bootstrap principal. -/
def upgradeFromBaseline (principal : P) (current : CatalogGeneration rules) (targetMinor : ℕ)
    (delta : DdlDelta P) : Except CatalogError (CatalogMutationSet P) := do
  require (current.formatMinor = BASELINE_CATALOG_MINOR) (.invalidCatalogMutation
    "procedural upgrade requires an exact 6.0 source generation")
  require (.BOOTSTRAP_OWNER ∉ delta.mutations.map (·.targetId)) (.invalidCatalogMutation
    "requested mutation collides with bootstrap principal promotion")
  let bootstrap : CatalogObject P := {
    id := .BOOTSTRAP_OWNER, kind := .principal, namespaceId := none, parentId := none
    ownerPrincipalId := .BOOTSTRAP_OWNER, name := "radix_system", payload := principal
    definitionRevision := 1, revision_ne_zero := Nat.one_ne_zero, revision_lt := one_lt_revisions }
  let mutations := delta.mutations ++ [.create bootstrap]
  let owned := (ownersAfter current.graph mutations).filter (·.1 ≠ .BOOTSTRAP_OWNER)
  let edgeAdditions := owned.foldl (fun edges (id, owner) =>
    pushEdgeIfAbsent edges ⟨id, owner, .ownedBy, 0⟩) delta.edgeAdditions
  CatalogMutationSet.newForMinor targetMinor current.packMeta.databaseId current.packMeta.catalogId
    current.packMeta.catalogGeneration mutations delta.edgeRemovals edgeAdditions

def forGeneration (principal : P) (current : CatalogGeneration rules) (delta : DdlDelta P) :
    Except CatalogError (CatalogMutationSet P) :=
  let requiredMinor := requiredFormatMinor delta.mutations delta.edgeRemovals delta.edgeAdditions
  if current.formatMinor = BASELINE_CATALOG_MINOR ∧ PROCEDURAL_CATALOG_MINOR ≤ requiredMinor then
    upgradeFromBaseline principal current requiredMinor delta
  else
    CatalogMutationSet.newForMinor (max current.formatMinor requiredMinor)
      current.packMeta.databaseId current.packMeta.catalogId current.packMeta.catalogGeneration
      delta.mutations delta.edgeRemovals delta.edgeAdditions

def mutationSetForGeneration (principal : P) (generation : CatalogGeneration rules)
    (delta : DdlDelta P) : Except CatalogError (CatalogMutationSet P) := do
  let delta := { delta with
    edgeRemovals := delta.edgeRemovals.filter (· ∉ delta.edgeAdditions)
    edgeAdditions := delta.edgeAdditions.filter (· ∉ delta.edgeRemovals) }
  let delta ← if PROCEDURAL_CATALOG_MINOR ≤ generation.formatMinor then
      delta.mutations.foldlM (ownershipEdges generation) delta
    else .ok delta
  forGeneration principal generation delta

def CatalogGeneration.newForMinor (formatMinor : ℕ) (packMeta : CatalogPackMeta)
    (graph : CatalogGraph rules) : Except CatalogError (CatalogGeneration rules) :=
  if hlatest : formatMinor ≤ LATEST_CATALOG_MINOR then
    if hrequired : graph.requiredFormatMinor ≤ formatMinor then
      .ok ⟨formatMinor, packMeta, graph, hlatest, hrequired⟩
    else .error (.invalidCatalogMutation "catalog graph requires a newer minor")
  else .error (.unsupportedCatalogMinor formatMinor)

/-- One statement: `delta` is what its binder made of it. -/
def stageStatementAs (principal : P) (working : CatalogGeneration rules) (actor : ObjectId)
    (delta : DdlDelta P) : Except CatalogError (CatalogGeneration rules) :=
  let delta := { delta with mutations := delta.mutations.map (assignCreatedOwner actor) }
  if delta.isEmpty then .ok working
  else do
    let set ← mutationSetForGeneration principal working delta
    let graph ← set.apply working
    CatalogGeneration.newForMinor (max working.formatMinor graph.requiredFormatMinor)
      working.packMeta graph

/-- The generations that statements make of a first one. -/
inductive Staged (principal : P) (source : CatalogGeneration rules) :
    CatalogGeneration rules → Prop
  | start : Staged principal source source
  | step {working next : CatalogGeneration rules} (actor : ObjectId) (delta : DdlDelta P) :
      Staged principal source working →
      stageStatementAs principal working actor delta = .ok next → Staged principal source next

theorem Staged.formatMinor_le {principal : P} {source working : CatalogGeneration rules}
    (h : Staged principal source working) : source.formatMinor ≤ working.formatMinor := by
  induction h with
  | start => exact le_rfl
  | @step working next actor delta _ hstage ih =>
    unfold stageStatementAs at hstage
    dsimp only at hstage
    split at hstage
    · cases hstage
      exact ih
    · obtain ⟨set, -, hstage⟩ := ok_of_bind hstage
      obtain ⟨graph, -, hstage⟩ := ok_of_bind hstage
      unfold CatalogGeneration.newForMinor at hstage
      split at hstage
      · split at hstage
        · cases hstage
          exact ih.trans (le_max_left _ _)
        · cases hstage
      · cases hstage

/-! ## The difference of two generations -/

def objectPrecondition (object : CatalogObject P) : ObjectPrecondition :=
  ⟨object.id, object.kind, object.definitionRevision⟩

section

variable [DecidableEq P]

def nameOnlyChange (source working : CatalogObject P) : Bool :=
  source.name ≠ working.name ∧ source.id = working.id ∧ source.kind = working.kind ∧
    source.namespaceId = working.namespaceId ∧ source.parentId = working.parentId ∧
    source.ownerPrincipalId = working.ownerPrincipalId ∧ source.payload = working.payload

def objectWithRevision (object : CatalogObject P) (revision : ℕ) (hzero : revision ≠ 0)
    (hlt : revision < 2 ^ 64) : CatalogObject P :=
  { object with
    definitionRevision := revision, revision_ne_zero := hzero, revision_lt := hlt }

/-- What became of the object of an id. -/
def diffObject (before after : Option (CatalogObject P)) :
    Except CatalogError (Option (CatalogMutation P)) :=
  match before, after with
  | none, none => .ok none
  | some object, none => .ok (some (.drop (objectPrecondition object)))
  | none, some object =>
    .ok (some (.create (objectWithRevision object 1 Nat.one_ne_zero one_lt_revisions)))
  | some object, some after =>
    if object = after then .ok none
    else if nameOnlyChange object after then
      .ok (some (.rename (objectPrecondition object) after.name))
    else if h : object.definitionRevision + 1 < 2 ^ 64 then
      .ok (some (.alter (objectPrecondition object)
        (objectWithRevision after (object.definitionRevision + 1) object.next_ne_zero h)))
    else .error (.internal "catalog object revision overflow")

variable (source working : CatalogGraph rules)

/-- The ids of the source, and then those that only the working generation has. -/
def diffIds : List ObjectId :=
  source.objects.map (·.id) ++ (working.objects.map (·.id)).filter (source.object · |>.isNone)

def isDropped (id : ObjectId) : Bool :=
  (source.object id).isSome && (working.object id).isNone

/-- Edges of dropped objects go with them and are not removed one by one. -/
def removedEdges : List CatalogEdge :=
  source.edges.filter fun edge => edge ∉ working.edges ∧
    ¬isDropped source working edge.sourceObjectId ∧ ¬isDropped source working edge.targetObjectId

def addedEdges : List CatalogEdge :=
  working.edges.filter (· ∉ source.edges)

variable (source working : CatalogGeneration rules)

def diffGenerations : Except CatalogError (Option (CatalogMutationSet P)) := do
  let found ← (diffIds source.graph working.graph).mapM fun id =>
    diffObject (source.graph.object id) (working.graph.object id)
  let mutations := found.reduceOption
  let removals := removedEdges source.graph working.graph
  let additions := addedEdges source.graph working.graph
  if mutations.isEmpty ∧ removals.isEmpty ∧ additions.isEmpty then .ok none
  else do
    let set ← CatalogMutationSet.newForMinor working.formatMinor source.packMeta.databaseId
      source.packMeta.catalogId source.packMeta.catalogGeneration mutations removals additions
    .ok (some set)

/-- Where no statement changed anything, the source shares its generation with the transaction and
the difference, which is nothing, is not computed. -/
def pendingMutation : Except CatalogError (Option (CatalogMutationSet P)) :=
  diffGenerations source working

/-! ## What the difference holds -/

/-- Both generations have the same objects and edges. -/
def SameGraph : Prop :=
  (∀ id, working.graph.object id = source.graph.object id) ∧
    ∀ edge, edge ∈ working.graph.edges ↔ edge ∈ source.graph.edges

/-- The object that coalescing gives, of what an id was and has become. -/
def Coalesced (before after result : Option (CatalogObject P)) : Prop :=
  match after with
  | none => result = none
  | some object => ∃ r, result = some r ∧ r.toCatalogDefinition = object.toCatalogDefinition ∧
      r.definitionRevision =
        match before with
        | none => 1
        | some old => if old = object then old.definitionRevision else old.definitionRevision + 1

/-- The pending mutation set can be applied to the source, and gives the working graph. -/
def Coalesces : Prop :=
  ∃ set graph, pendingMutation source working = .ok (some set) ∧ set.apply source = .ok graph ∧
    (∀ edge, edge ∈ graph.edges ↔ edge ∈ working.graph.edges) ∧
    ∀ id, Coalesced (source.graph.object id) (working.graph.object id) (graph.object id)

/-- What the difference of two generations must be. -/
structure Collapsible (source working : CatalogGeneration rules) : Prop where
  format : working.formatMinor = max source.formatMinor working.graph.requiredFormatMinor
  place : ∀ id o w, source.graph.object id = some o → working.graph.object id = some w → o ≠ w →
    w.kind = o.kind ∧ w.namespaceId = o.namespaceId ∧ w.parentId = o.parentId
  revision : ∀ id o w, source.graph.object id = some o → working.graph.object id = some w → o ≠ w →
    o.definitionRevision + 1 < 2 ^ 64
  mutations_le : ((diffIds source.graph working.graph).filter fun id =>
    source.graph.object id ≠ working.graph.object id).length ≤ MAX_CATALOG_MUTATIONS_PER_SET
  edges_le : (removedEdges source.graph working.graph).length +
    (addedEdges source.graph working.graph).length ≤ MAX_CATALOG_EDGE_DELTAS_PER_SET

section

variable {source working : CatalogGraph rules} {id : ObjectId} {o w : CatalogObject P}
  {m : CatalogMutation P} {c : Option (CatalogMutation P)} {l : List (CatalogMutation P)}

variable {a b : Option (CatalogObject P)} {found : List (Option (CatalogMutation P))}

theorem diffObject_eq_none (h : diffObject b a = .ok c) : c = none ↔ b = a := by
  unfold diffObject at h
  split at h
  next => simpa using (Except.ok.inj h).symm
  next =>
    cases h
    simp
  next =>
    cases h
    simp
  next =>
    split_ifs at h with hsame
    all_goals
      cases h
      simp [hsame]

/-- What a mutation of the difference says of the object that was and the one that is. -/
inductive Diff (b a : Option (CatalogObject P)) : CatalogMutation P → Prop
  | drop {o : CatalogObject P} (hb : b = some o) (ha : a = none) :
      Diff b a (.drop (objectPrecondition o))
  | create {w : CatalogObject P} (hb : b = none) (ha : a = some w) :
      Diff b a (.create (objectWithRevision w 1 (by decide) (by decide)))
  | rename {o w : CatalogObject P} (hb : b = some o) (ha : a = some w) (hne : o ≠ w)
      (hname : nameOnlyChange o w = true) : Diff b a (.rename (objectPrecondition o) w.name)
  | alter {o w : CatalogObject P} (hb : b = some o) (ha : a = some w) (hne : o ≠ w)
      (hlt : o.definitionRevision + 1 < 2 ^ 64) : Diff b a (.alter (objectPrecondition o)
        (objectWithRevision w (o.definitionRevision + 1) (Nat.succ_ne_zero _) hlt))

theorem diff_of_ok (h : diffObject b a = .ok (some m)) : Diff b a m := by
  unfold diffObject at h
  split at h
  next => cases h
  next =>
    cases h
    exact .drop rfl rfl
  next =>
    cases h
    exact .create rfl rfl
  next =>
    split_ifs at h with hne hname hlt
    · cases h
    · cases h
      exact .rename rfl rfl hne hname
    · cases h
      exact .alter rfl rfl hne hlt

abbrev diffAt (source working : CatalogGraph rules) (id : ObjectId) :=
  diffObject (source.object id) (working.object id)

theorem diffObject_target (h : diffAt source working id = .ok (some m)) : m.targetId = id := by
  cases diff_of_ok h with
  | @create w _ ha => exact (id_of_findObject ha : w.id = id)
  | drop hb | rename hb | alter hb => exact id_of_findObject hb

/-- The mutations of the difference, in any order. -/
structure Mutates (source working : CatalogGraph rules) (l : List (CatalogMutation P)) : Prop where
  defined : ∀ id, ∃ c, diffAt source working id = .ok c
  mem_iff : ∀ id m, m ∈ l ∧ m.targetId = id ↔ diffAt source working id = .ok (some m)
  targets : (l.map (·.targetId)).Nodup

omit [DecidableEq P] in
theorem mem_diffIds : id ∈ diffIds source working ↔
    (source.object id).isSome ∨ (working.object id).isSome := by
  have hmem : ∀ graph : CatalogGraph rules, id ∈ graph.objects.map (·.id) ↔
      (graph.object id).isSome := by
    intro graph
    simp [CatalogGraph.object, findObject]
  rw [diffIds, mem_append, mem_filter, hmem, hmem]
  cases source.object id <;> simp

omit [DecidableEq P] in
theorem diffIds_nodup : (diffIds source working).Nodup := by
  refine nodup_append'.mpr ⟨source.ids_nodup, working.ids_nodup.filter _, ?_⟩
  intro id hold hnew
  obtain ⟨o, ho, rfl⟩ := mem_map.mp hold
  simp [CatalogGraph.object, findObject_of_mem source.ids_nodup ho] at hnew

theorem diffObject_of_not_mem (h : id ∉ diffIds source working) :
    diffAt source working id = .ok none := by
  rw [mem_diffIds, not_or, Option.not_isSome_iff_eq_none, Option.not_isSome_iff_eq_none] at h
  rw [diffAt, h.1, h.2]
  rfl

theorem found_spec {ids : List ObjectId} (h : Forall₂ (diffAt source working · = .ok ·) ids found) :
    (∀ m, m ∈ found.reduceOption ↔ ∃ id ∈ ids, diffAt source working id = .ok (some m)) ∧
    (found.reduceOption.map (·.targetId)).Sublist ids ∧
    found.reduceOption.length =
      (ids.filter fun id => source.object id ≠ working.object id).length := by
  induction h with
  | nil => simp [reduceOption_nil]
  | @cons id c ids found hc _ ih =>
    obtain ⟨hmem, hsub, hlength⟩ := ih
    have hnone := diffObject_eq_none hc
    cases c with
    | none =>
      exact ⟨by simp [hmem, hc], hsub.trans (sublist_cons_self _ _),
        by simp [hlength, hnone.mp rfl]⟩
    | some m =>
      have hne : source.object id ≠ working.object id := fun h => nomatch hnone.mpr h
      rw [reduceOption_cons_of_some, map_cons, diffObject_target hc]
      exact ⟨by simp [hmem, hc, eq_comm], hsub.cons_cons _, by simp [hlength, hne]⟩

theorem mutates_of_found (h : (diffIds source working).mapM (diffAt source working) = .ok found) :
    Mutates source working found.reduceOption := by
  obtain ⟨hmem, hsub, -⟩ := found_spec (forall₂_of_mapM h)
  refine ⟨fun id => ?_, fun id m => ⟨?_, fun hm => ?_⟩, diffIds_nodup.sublist hsub⟩
  · by_cases hid : id ∈ diffIds source working
    · obtain ⟨i, hi⟩ := getElem?_of_mem hid
      obtain ⟨c, -, hc⟩ := (forall₂_of_mapM h).exists_right hi
      exact ⟨c, hc⟩
    · exact ⟨none, diffObject_of_not_mem hid⟩
  · rintro ⟨hm, rfl⟩
    obtain ⟨id, -, hid⟩ := (hmem m).mp hm
    rwa [diffObject_target hid]
  · refine ⟨(hmem m).mpr ⟨id, ?_, hm⟩, diffObject_target hm⟩
    by_contra hid
    cases (diffObject_of_not_mem hid).symm.trans hm

omit [DecidableEq P] in
theorem currentObject_precondition (h : source.object id = some o) :
    currentObject source (objectPrecondition o) = .ok o := by
  obtain rfl := id_of_findObject h
  exact currentObject_eq_ok.mpr ⟨h, rfl, rfl⟩

omit [DecidableEq P] in
theorem renamed_of_apply {expected : ObjectPrecondition} {newName : String}
    {before after : List (CatalogObject P)} (ho : currentObject source expected = .ok o)
    (h : applyMutation source before (.rename expected newName) = .ok after) :
    ∃ r, renamed o newName = .ok r := by
  obtain ⟨o', ho', h⟩ := ok_of_bind h
  obtain ⟨r, hr, -⟩ := ok_of_bind h
  cases ho.symm.trans ho'
  exact ⟨r, hr⟩

theorem definition_of_nameOnlyChange (h : nameOnlyChange o w = true) :
    { o.toCatalogDefinition with name := w.name } = w.toCatalogDefinition := by
  obtain ⟨-, h⟩ := of_decide_eq_true h
  obtain ⟨⟨id, kind, namespaceId, parentId, owner, name, payload⟩, revision, _, _⟩ := o
  obtain ⟨rfl, rfl, rfl, rfl, rfl, rfl⟩ := h
  rfl

namespace Mutates

variable (h : Mutates source working l)

include h

theorem mem (hdiff : diffAt source working id = .ok (some m)) : m ∈ l :=
  ((h.mem_iff id m).mpr hdiff).1

theorem diff (hm : m ∈ l) : diffAt source working m.targetId = .ok (some m) :=
  (h.mem_iff _ m).mp ⟨hm, rfl⟩

theorem perm {l' : List (CatalogMutation P)} (hperm : l'.Perm l) : Mutates source working l' :=
  ⟨h.defined, fun id m => by rw [hperm.mem_iff, h.mem_iff],
    (hperm.map _).nodup_iff.mpr h.targets⟩

variable {objects : List (CatalogObject P)}

/-- **The objects**: whatever order the mutations are applied in, they give those of the working
generation. -/
theorem coalesced (happly : l.foldlM (applyMutation source) source.objects = .ok objects)
    (id : ObjectId) : Coalesced (source.object id) (working.object id) (findObject objects id) := by
  obtain ⟨-, hfind, hother, hrun⟩ := applyMutations_spec happly h.targets source.ids_nodup
  obtain ⟨c, hc⟩ := h.defined id
  cases c with
  | none =>
    have hsame := (diffObject_eq_none hc).mp rfl
    have huntouched : findObject objects id = source.object id := by
      refine hother id fun hin => ?_
      obtain ⟨m, hm, rfl⟩ := mem_map.mp hin
      cases hc.symm.trans (h.diff hm)
    rw [huntouched, ← hsame]
    cases source.object id with
    | none => rfl
    | some o => exact ⟨o, rfl, rfl, (if_pos rfl).symm⟩
  | some m =>
    have hm := h.mem hc
    obtain rfl := diffObject_target hc
    rw [hfind m hm]
    cases diff_of_ok hc with
    | drop hb ha => rw [ha]; rfl
    | create hb ha => rw [hb, ha]; exact ⟨_, rfl, rfl, rfl⟩
    | rename hb ha hne hname =>
      obtain ⟨before, after, hrename⟩ := hrun _ hm
      have hcur := currentObject_precondition hb
      obtain ⟨r, hr⟩ := renamed_of_apply hcur hrename
      obtain ⟨hdefinition, hnext⟩ := renamed_spec hr
      rw [hb, ha, CatalogMutation.outcome, hcur]
      exact ⟨r, congrArg Except.toOption hr,
        hdefinition.trans (definition_of_nameOnlyChange hname), hnext.trans (if_neg hne).symm⟩
    | alter hb ha hne => rw [hb, ha]; exact ⟨_, rfl, rfl, (if_neg hne).symm⟩

theorem mem_droppedIds : id ∈ l.filterMap (·.droppedId) ↔
    (source.object id).isSome ∧ working.object id = none := by
  rw [mem_filterMap]
  constructor
  · rintro ⟨m, hm, hid⟩
    cases diff_of_ok (h.diff hm) with
    | drop hb ha =>
      cases hid
      exact ⟨Option.isSome_of_eq_some hb, ha⟩
    | _ => cases hid
  · rintro ⟨hsource, hnone⟩
    obtain ⟨o, ho⟩ := Option.isSome_iff_exists.mp hsource
    have hdrop : diffAt source working id = .ok (some (.drop (objectPrecondition o))) := by
      rw [diffAt, ho, hnone]
      rfl
    exact ⟨_, h.mem hdrop, congrArg some (id_of_findObject ho)⟩

/-- What the mutation of a changed object demands when it is applied. -/
theorem place (happly : l.foldlM (applyMutation source) source.objects = .ok objects)
    (ho : source.object id = some o) (hw : working.object id = some w) (hne : o ≠ w) :
    (w.kind = o.kind ∧ w.namespaceId = o.namespaceId ∧ w.parentId = o.parentId) ∧
      o.definitionRevision + 1 < 2 ^ 64 := by
  obtain ⟨-, -, -, hrun⟩ := applyMutations_spec happly h.targets source.ids_nodup
  have hcur := currentObject_precondition ho
  obtain ⟨c, hc⟩ := h.defined id
  cases c with
  | none => exact absurd (Option.some.inj (ho ▸ hw ▸ (diffObject_eq_none hc).mp rfl)) hne
  | some m =>
    obtain ⟨before, after, hm⟩ := hrun m (h.mem hc)
    rw [diffAt, ho, hw] at hc
    cases diff_of_ok hc with
    | drop _ ha => cases ha
    | create hb => cases hb
    | rename hb ha _ hname =>
      cases hb
      cases ha
      obtain ⟨r, hr⟩ := renamed_of_apply hcur hm
      obtain ⟨-, -, hkind, hns, hparent, -⟩ := of_decide_eq_true hname
      exact ⟨⟨hkind.symm, hns.symm, hparent.symm⟩, (renamed_spec hr).2 ▸ r.revision_lt⟩
    | alter hb ha _ hlt =>
      cases hb
      cases ha
      obtain ⟨o', ho', hm⟩ := ok_of_bind hm
      obtain ⟨u, hvalid, -⟩ := ok_of_bind hm
      cases hcur.symm.trans ho'
      obtain ⟨-, hkind, hns, hparent, -⟩ := validateAlterReplacement_eq_ok.mp hvalid
      exact ⟨⟨hkind, hns, hparent⟩, hlt⟩

omit h in
theorem admitted {source working : CatalogGeneration rules}
    (h : Mutates source.graph working.graph l) (hc : Collapsible source working) (hm : m ∈ l) :
    m.Admitted source.graph := by
  cases diff_of_ok (h.diff hm) with
  | drop hb => exact ⟨_, currentObject_precondition hb⟩
  | create hb => exact ⟨rfl, hb⟩
  | @rename o w hb ha hne hname =>
    refine ⟨o, { o with
      name := w.name, definitionRevision := o.definitionRevision + 1
      revision_ne_zero := Nat.succ_ne_zero _
      revision_lt := hc.revision _ o w hb ha hne }, currentObject_precondition hb, ?_⟩
    rw [renamed, if_neg (of_decide_eq_true hname).1, dif_pos]
  | @alter o w hb ha hne =>
    obtain ⟨hkind, hns, hparent⟩ := hc.place _ o w hb ha hne
    have hid : w.id = o.id := (id_of_findObject ha).trans (id_of_findObject hb).symm
    exact ⟨o, currentObject_precondition hb,
      validateAlterReplacement_eq_ok.mpr ⟨hid, hkind, hns, hparent, rfl⟩⟩

end Mutates

end

section

omit [DecidableEq P]

variable {source working : CatalogGraph rules} {edge : CatalogEdge}

theorem mem_addedEdges : edge ∈ addedEdges source working ↔
    edge ∈ working.edges ∧ edge ∉ source.edges := by
  simp [addedEdges]

theorem ends_of_mem (graph : CatalogGraph rules) (h : edge ∈ graph.edges) :
    (graph.object edge.sourceObjectId).isSome ∧ (graph.object edge.targetObjectId).isSome :=
  validateEdgeEndpoints_forM.mp graph.endpoints edge h

theorem mem_removedEdges : edge ∈ removedEdges source working ↔
    edge ∈ source.edges ∧ edge ∉ working.edges ∧
      (working.object edge.sourceObjectId).isSome ∧
      (working.object edge.targetObjectId).isSome := by
  rw [removedEdges, mem_filter]
  refine and_congr_right fun hedge => ?_
  obtain ⟨hsource, htarget⟩ := ends_of_mem source hedge
  simp [isDropped, hsource, htarget, Option.isSome_iff_ne_none]

/-- The edges that applying the difference gives. -/
theorem edges_coalesced {dropped : List ObjectId}
    (hdropped : ∀ id, id ∈ dropped ↔ (source.object id).isSome ∧ working.object id = none) :
    ∃ edges edges', (removedEdges source working).foldlM removeEdge source.edges = .ok edges ∧
      (addedEdges source working).foldlM addEdge (edges.filter fun edge =>
        edge.sourceObjectId ∉ dropped ∧ edge.targetObjectId ∉ dropped) = .ok edges' ∧
      edges'.Nodup ∧ ∀ edge, edge ∈ edges' ↔ edge ∈ working.edges := by
  have hdiff : ∀ edge, edge ∈ source.edges.diff (removedEdges source working) ↔
      edge ∈ source.edges ∧ edge ∉ removedEdges source working := fun edge =>
    source.edges_nodup.mem_sdiff_iff
  have hremove := foldlM_removeEdge (l := removedEdges source working)
    (source.edges_nodup.filter _) fun edge h => (mem_removedEdges.mp h).1
  have hkept : ∀ edge ∈ addedEdges source working,
      edge ∉ (source.edges.diff (removedEdges source working)).filter fun edge =>
        edge.sourceObjectId ∉ dropped ∧ edge.targetObjectId ∉ dropped := by
    intro edge hedge hmem
    exact (mem_addedEdges.mp hedge).2 ((hdiff edge).mp (mem_filter.mp hmem).1).1
  refine ⟨_, _, hremove, foldlM_addEdge (working.edges_nodup.filter _) hkept, ?_, ?_⟩
  · refine nodup_append'.mpr ⟨source.edges_nodup.diff.filter _,
      working.edges_nodup.filter _, fun edge hold hnew => hkept edge hnew hold⟩
  · intro edge
    rw [mem_append, mem_filter, hdiff, mem_addedEdges, decide_eq_true_eq,
      mem_removedEdges, hdropped, hdropped]
    by_cases hedge : edge ∈ source.edges
    · have hends := ends_of_mem source hedge
      have hends' := fun h : edge ∈ working.edges => ends_of_mem working h
      simp only [Option.isSome_iff_ne_none] at hends hends' ⊢
      tauto
    · simp [hedge]

end

section

variable {source working : CatalogGeneration rules}

theorem sameGraph_of_pending (h : pendingMutation source working = .ok none) :
    SameGraph source working := by
  obtain ⟨found, hfound, h⟩ := ok_of_bind h
  dsimp only at h
  split_ifs at h with hempty
  · obtain ⟨hmutations, hremovals, hadditions⟩ := hempty
    rw [List.isEmpty_iff] at hmutations hremovals hadditions
    have hobjs : ∀ id, working.graph.object id = source.graph.object id := by
      intro id
      have hmutates := mutates_of_found hfound
      obtain ⟨c, hc⟩ := hmutates.defined id
      cases c with
      | none => exact ((diffObject_eq_none hc).mp rfl).symm
      | some m => exact absurd (hmutations ▸ hmutates.mem hc) not_mem_nil
    refine ⟨hobjs, fun edge => ⟨fun hedge => ?_, fun hedge => ?_⟩⟩
    · by_contra hnew
      exact not_mem_nil (hadditions ▸ mem_addedEdges.mpr ⟨hedge, hnew⟩)
    · by_contra hgone
      have hends := ends_of_mem _ hedge
      rw [← hobjs, ← hobjs] at hends
      exact not_mem_nil (hremovals ▸ mem_removedEdges.mpr ⟨hedge, hgone, hends⟩)
  · obtain ⟨set, -, h⟩ := ok_of_bind h
    cases h

theorem Collapsible.exists_found (hc : Collapsible source working) :
    ∃ found, (diffIds source.graph working.graph).mapM (diffAt source.graph working.graph) =
      .ok found := by
  refine exists_mapM fun id _ => ?_
  unfold diffAt diffObject
  split
  next => exact ⟨_, rfl⟩
  next => exact ⟨_, rfl⟩
  next => exact ⟨_, rfl⟩
  next o w ho hw =>
    split_ifs with hsame hname hrevision
    · exact ⟨_, rfl⟩
    · exact ⟨_, rfl⟩
    · exact ⟨_, rfl⟩
    · exact absurd (hc.revision id o w ho hw hsame) hrevision

theorem Coalesced.map_definition {before after result : Option (CatalogObject P)}
    (h : Coalesced before after result) :
    result.map (·.toCatalogDefinition) = after.map (·.toCatalogDefinition) := by
  cases after with
  | none => exact congrArg _ h
  | some object =>
    obtain ⟨r, rfl, hr, -⟩ := h
    exact congrArg some hr

omit [DecidableEq P] in
theorem required_eq {graph graph' : CatalogGraph rules}
    (hedges : ∀ edge, edge ∈ graph.edges ↔ edge ∈ graph'.edges)
    (hobjs : ∀ id, (graph.object id).map (·.toCatalogDefinition) =
      (graph'.object id).map (·.toCatalogDefinition)) :
    graph.requiredFormatMinor = graph'.requiredFormatMinor := by
  refine eq_of_forall_ge_iff fun minor => ?_
  rw [requiredFormatMinor_le, requiredFormatMinor_le]
  refine and_congr (forall_congr' fun id => ?_) (by simp only [hedges])
  have hid := hobjs id
  cases hgraph : graph.object id <;> cases hworking : graph'.object id <;> simp_all

theorem required_mutations_le (hminor : source.formatMinor ≤ working.formatMinor)
    {l : List (CatalogMutation P)} (h : Mutates source.graph working.graph l) :
    requiredFormatMinor l (removedEdges source.graph working.graph)
      (addedEdges source.graph working.graph) ≤ working.formatMinor := by
  obtain ⟨hold, hold'⟩ := requiredFormatMinor_le.mp (source.required_le.trans hminor)
  obtain ⟨hnew, hnew'⟩ := requiredFormatMinor_le.mp working.required_le
  rw [requiredFormatMinor, foldr_max_le]
  simp only [mem_append, mem_map, or_imp, forall_and, forall_exists_index, and_imp,
    forall_apply_eq_imp_iff₂]
  refine ⟨fun m hm => ?_, fun edge h => hold' edge (mem_removedEdges.mp h).1,
    fun edge h => hnew' edge (mem_addedEdges.mp h).1⟩
  cases diff_of_ok (h.diff hm) with
  | drop hb | rename hb => exact hold _ _ hb
  | @create w _ ha | @alter _ w _ ha => exact hnew _ w ha

theorem Collapsible.coalesces (hc : Collapsible source working)
    (hminor : source.formatMinor ≤ working.formatMinor) (hdiffers : ¬SameGraph source working) :
    Coalesces source working := by
  obtain ⟨found, hfound⟩ := hc.exists_found
  obtain ⟨-, -, hlength⟩ := found_spec (forall₂_of_mapM hfound)
  have hmutates := mutates_of_found hfound
  have hsorted := hmutates.perm (perm_insertionSort (fun a b => a.targetId ≤ b.targetId) _)
  have hadm := fun m => hsorted.admitted (m := m) hc
  obtain ⟨objects, hobjs⟩ := exists_applyMutations hadm hsorted.targets fun m _ => rfl
  obtain ⟨edges, edges', hedges, hedges', hnodup, hmem⟩ :=
    edges_coalesced fun id => hsorted.mem_droppedIds
  have hcoal := hsorted.coalesced hobjs
  have hdefs : definitions objects = definitions working.graph.objects :=
    funext fun id => (hcoal id).map_definition
  have hends : edges'.forM (validateEdgeEndpoints objects) = .ok () := by
    refine validateEdgeEndpoints_forM.mpr fun edge hedge => ?_
    have hsome : ∀ id, (findObject objects id).isSome = (working.graph.object id).isSome := by
      intro id
      rw [← Option.isSome_map (f := (·.toCatalogDefinition)), (hcoal id).map_definition,
        Option.isSome_map]
    rw [hsome, hsome]
    exact ends_of_mem _ ((hmem edge).mp hedge)
  have hrules : rules (definitions objects) (· ∈ edges') = none := by
    simp only [hdefs, hmem]
    exact working.graph.admitted
  have hbuild := CatalogGraph.build_of
    (applyMutations_spec hobjs hsorted.targets source.graph.ids_nodup).1 hnodup hends hrules
  have hdisjoint : ∀ edge ∈ removedEdges source.graph working.graph,
      edge ∉ addedEdges source.graph working.graph := fun edge hold hnew =>
    (mem_addedEdges.mp hnew).2 (mem_removedEdges.mp hold).1
  have hnonempty : ¬(found.reduceOption.isEmpty ∧
      (removedEdges source.graph working.graph).isEmpty ∧
      (addedEdges source.graph working.graph).isEmpty) := by
    intro hempty
    refine hdiffers (sameGraph_of_pending ?_)
    rw [pendingMutation, diffGenerations, hfound]
    exact if_pos hempty
  have hnew := CatalogMutationSet.newForMinor_eq_ok.mpr ⟨working.formatMinor_le,
    required_mutations_le hminor hmutates,
    ⟨source.packMeta.databaseId_ne_zero, source.packMeta.catalogId_ne_zero⟩,
    source.packMeta.catalogGeneration_ne_zero, hnonempty, hlength.trans_le hc.mutations_le,
    hc.edges_le, hmutates.targets,
    ⟨source.graph.edges_nodup.filter _, working.graph.edges_nodup.filter _⟩, hdisjoint, rfl⟩
  have hpend := Eq.trans (a := pendingMutation source working)
    (by rw [pendingMutation, diffGenerations, hfound]; exact if_neg hnonempty)
    (congrArg (· >>= fun set => Except.ok (some set)) hnew)
  refine ⟨_, _, hpend, CatalogMutationSet.apply_eq_ok.mpr ⟨⟨rfl, rfl, rfl⟩, ?_, objects,
    hobjs, edges, hedges, edges', hedges', hbuild, ?_⟩, hmem, hcoal⟩
  · exact forM_eq_ok_iff.mpr fun m hm => (hadm m hm).validate
  · exact hc.format.trans (congrArg _
      (required_eq hmem fun id => (hcoal id).map_definition).symm)

theorem Coalesces.collapsible (h : Coalesces source working) : Collapsible source working := by
  obtain ⟨set, graph, hpend, happly, hedges, hcoal⟩ := h
  obtain ⟨found, hfound, hpend⟩ := ok_of_bind hpend
  dsimp only at hpend
  split_ifs at hpend
  · cases hpend
  obtain ⟨set', hset, hsome⟩ := ok_of_bind hpend
  cases hsome
  obtain ⟨-, -, -, -, -, hcount, hdeltas, -, -, -, rfl⟩ :=
    CatalogMutationSet.newForMinor_eq_ok.mp hset
  obtain ⟨-, -, objects, hobjs, -, -, -, -, -, hminor⟩ :=
    CatalogMutationSet.apply_eq_ok.mp happly
  have hsorted := (mutates_of_found hfound).perm
    (perm_insertionSort (fun a b => a.targetId ≤ b.targetId) _)
  have hrequired := required_eq hedges fun id => (hcoal id).map_definition
  refine ⟨hrequired ▸ hminor, fun id o w ho hw hne => ?_, fun id o w ho hw hne => ?_, ?_, hdeltas⟩
  · exact (hsorted.place hobjs ho hw hne).1
  · exact (hsorted.place hobjs ho hw hne).2
  · exact (found_spec (forall₂_of_mapM hfound)).2.2.symm.trans_le hcount

/-- **Coalescing**: nothing is pending only if the graph is as it was; otherwise the pending
mutation set gives the working graph exactly if the two generations are `Collapsible`. -/
theorem pending_coalesces_iff {principal : P} (h : Staged principal source working) :
    (pendingMutation source working = .ok none → SameGraph source working) ∧
      (¬SameGraph source working → (Coalesces source working ↔ Collapsible source working)) :=
  ⟨sameGraph_of_pending, fun hdiffers =>
    ⟨Coalesces.collapsible, fun hc => hc.coalesces h.formatMinor_le hdiffers⟩⟩

end

/-! ## An extension that comes and goes -/

def publicNamespace : CatalogObject Unit where
  id := 1
  kind := .nameSpace
  namespaceId := none
  parentId := none
  ownerPrincipalId := .BOOTSTRAP_OWNER
  name := "public"
  payload := ()
  definitionRevision := 1
  revision_ne_zero := Nat.one_ne_zero
  revision_lt := one_lt_revisions

def bootstrapPrincipal : CatalogObject Unit :=
  { publicNamespace with id := .BOOTSTRAP_OWNER, kind := .principal, name := "radix_system" }

def geoExtension : CatalogObject Unit :=
  { publicNamespace with id := 0x10000000000000000, kind := .extension, name := "geo" }

def firstMeta : CatalogPackMeta :=
  ⟨1, 1, 1, 0, 0, by decide, by decide, Nat.one_ne_zero, one_lt_revisions⟩

/-- The catalog of a new database. -/
def bootstrapGeneration : CatalogGeneration (P := Unit) fun _ _ => none where
  formatMinor := 0
  packMeta := firstMeta
  graph := ⟨[publicNamespace], [], by decide, by decide, rfl, rfl⟩
  formatMinor_le := by decide
  required_le := by decide

/-- The catalog with an extension. -/
def extendedGeneration : CatalogGeneration (P := Unit) fun _ _ => none where
  formatMinor := 2
  packMeta := firstMeta
  graph := ⟨[geoExtension, bootstrapPrincipal, publicNamespace],
    [ownedBy geoExtension, ownedBy publicNamespace], by decide, by decide, rfl, rfl⟩
  formatMinor_le := by decide
  required_le := by decide

/-- The catalog after the extension is dropped again: the format stays. -/
def droppedGeneration : CatalogGeneration (P := Unit) fun _ _ => none where
  formatMinor := 2
  packMeta := firstMeta
  graph := ⟨[bootstrapPrincipal, publicNamespace], [ownedBy publicNamespace], by decide, by decide,
    rfl, rfl⟩
  formatMinor_le := by decide
  required_le := by decide

theorem staged_extended : Staged () bootstrapGeneration extendedGeneration :=
  .step .BOOTSTRAP_OWNER ⟨[.create geoExtension], [], []⟩ .start rfl

theorem staged_dropped : Staged () bootstrapGeneration droppedGeneration :=
  .step .BOOTSTRAP_OWNER ⟨[.drop (objectPrecondition geoExtension)], [], []⟩ staged_extended rfl

theorem pending_coalesces_extended :
    ¬SameGraph bootstrapGeneration extendedGeneration ∧
      Coalesces bootstrapGeneration extendedGeneration := by
  have hdiffers : ¬SameGraph bootstrapGeneration extendedGeneration := fun h =>
    nomatch h.1 geoExtension.id
  have hpublic : ∀ id o, bootstrapGeneration.graph.object id = some o → o = publicNamespace :=
    fun id o h => mem_singleton.mp (mem_of_findObject h)
  have hsame : ∀ id o w, bootstrapGeneration.graph.object id = some o →
      extendedGeneration.graph.object id = some w → o = w := by
    intro id o w ho hw
    obtain rfl := hpublic id o ho
    obtain rfl := id_of_findObject ho
    exact Option.some.inj hw
  refine ⟨hdiffers, ((pending_coalesces_iff staged_extended).2 hdiffers).mpr ?_⟩
  refine ⟨rfl, fun id o w ho hw hne => absurd (hsame id o w ho hw) hne,
    fun id o w ho hw hne => absurd (hsame id o w ho hw) hne, ?_, by decide⟩
  exact (length_filter_le _ _).trans (by decide)

/-- The extension is gone and its format has stayed, which no mutation of the source leads to. -/
theorem extension_come_and_gone :
    Staged () bootstrapGeneration droppedGeneration ∧
      ¬SameGraph bootstrapGeneration droppedGeneration ∧
      ¬Coalesces bootstrapGeneration droppedGeneration := by
  refine ⟨staged_dropped, fun h => ?_, fun h => ?_⟩
  · cases h.1 .BOOTSTRAP_OWNER
  · cases h.collapsible.format

end

end RadixDb.Catalog

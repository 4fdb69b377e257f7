import RadixDb.Lib.Checked

/-!
# Catalog generations and mutation sets

A catalog generation is a graph of objects and edges that passed the rules of the catalog. It is
never changed: a mutation set, made against one generation, is applied to it and gives the graph of
the next (`CatalogMutationSet.apply`).

The rules of a graph read its objects and edges, but of an object never the revision of its
definition. They are a parameter here (`GraphRules`), except that the ends of an edge are objects of
the graph: applying a mutation set depends on that.
-/

namespace RadixDb.Catalog

open List

/-! ## Objects and edges -/

abbrev ObjectId := BitVec 128

instance ObjectId.lawfulBEq : LawfulBEq ObjectId := inferInstance

def ObjectId.BOOTSTRAP_OWNER : ObjectId := 2

inductive ObjectKind where
  | nameSpace | table | column | constraint | index | view
  | principal | role | aclEntry | function | procedure | trigger | job
  | extension | externalType | operator | operatorClass | plannerSupport
  deriving DecidableEq

def BASELINE_CATALOG_MINOR : ℕ := 0
def PROCEDURAL_CATALOG_MINOR : ℕ := 1
def EXTENSION_CATALOG_MINOR : ℕ := 2
def LATEST_CATALOG_MINOR : ℕ := EXTENSION_CATALOG_MINOR

def ObjectKind.minimumCatalogMinor : ObjectKind → ℕ
  | nameSpace | table | column | constraint | index | view => BASELINE_CATALOG_MINOR
  | principal | role | aclEntry | function | procedure | trigger | job => PROCEDURAL_CATALOG_MINOR
  | extension | externalType | operator | operatorClass | plannerSupport => EXTENSION_CATALOG_MINOR

inductive EdgeKind where
  | contains | ownedBy | dependsOn | references | grantedTo | grantsOn
  deriving DecidableEq

def EdgeKind.minimumCatalogMinor : EdgeKind → ℕ
  | contains | ownedBy | dependsOn | references => 0
  | grantedTo | grantsOn => 1

structure CatalogEdge where
  sourceObjectId : ObjectId
  targetObjectId : ObjectId
  kind : EdgeKind
  ordinal : ℕ
  deriving DecidableEq

/-- What is defined, under whatever revision. -/
structure CatalogDefinition (P : Type) where
  id : ObjectId
  kind : ObjectKind
  namespaceId : Option ObjectId
  parentId : Option ObjectId
  ownerPrincipalId : ObjectId
  name : String
  payload : P
  deriving DecidableEq

structure CatalogObject (P : Type) extends CatalogDefinition P where
  definitionRevision : ℕ
  revision_ne_zero : definitionRevision ≠ 0
  revision_lt : definitionRevision < 2 ^ 64
  deriving DecidableEq

theorem one_lt_revisions : 1 < 2 ^ 64 := by
  decide

theorem CatalogObject.next_ne_zero {P : Type} (object : CatalogObject P) :
    object.definitionRevision + 1 ≠ 0 :=
  Nat.succ_ne_zero _

inductive CatalogError where
  | invalidCatalogMutation (detail : String)
  | catalogObjectPreconditionFailed (id : ObjectId) (detail : String)
  | staleCatalogMutation (field : String)
  | catalogMutationLimitExceeded (field : String) (actual limit : ℕ)
  | unsupportedCatalogMinor (minor : ℕ)
  | duplicateCatalogObject | duplicateCatalogEdge
  | missingCatalogObject (role : String) (id : ObjectId)
  | rule (detail : String)
  | invalidCatalogFormat (detail : String)
  | invalidCatalogWal (detail : String)
  | internal (detail : String)
  deriving DecidableEq

variable {P : Type}

/-! ## Graphs -/

/-- The rules of a graph, on the definition of each object and on the edges; the rule that is
broken, if one is. -/
abbrev GraphRules (P : Type) :=
  (ObjectId → Option (CatalogDefinition P)) → (CatalogEdge → Bool) → Option String

variable (objects : List (CatalogObject P))

/-- The object with an id in a list that is kept by id. -/
def findObject (id : ObjectId) : Option (CatalogObject P) :=
  objects.find? (·.id = id)

def insertObject (o : CatalogObject P) (objects : List (CatalogObject P)) :
    List (CatalogObject P) :=
  o :: objects.filter (·.id ≠ o.id)

def removeObject (id : ObjectId) (objects : List (CatalogObject P)) : List (CatalogObject P) :=
  objects.filter (·.id ≠ id)

def definitions (id : ObjectId) : Option (CatalogDefinition P) :=
  (findObject objects id).map (·.toCatalogDefinition)

def require (condition : Prop) [Decidable condition] (error : CatalogError) :
    Except CatalogError Unit :=
  if condition then .ok () else .error error

def validateEdgeEndpoints (edge : CatalogEdge) : Except CatalogError Unit := do
  require (findObject objects edge.sourceObjectId).isSome
    (.missingCatalogObject "edge source" edge.sourceObjectId)
  require (findObject objects edge.targetObjectId).isSome
    (.missingCatalogObject "edge target" edge.targetObjectId)

structure CatalogGraph (rules : GraphRules P) where
  objects : List (CatalogObject P)
  edges : List CatalogEdge
  ids_nodup : (objects.map (·.id)).Nodup
  edges_nodup : edges.Nodup
  endpoints : edges.forM (validateEdgeEndpoints objects) = .ok ()
  admitted : rules (definitions objects) (· ∈ edges) = none

variable {rules : GraphRules P}

namespace CatalogGraph

def build (rules : GraphRules P) (objects : List (CatalogObject P)) (edges : List CatalogEdge) :
    Except CatalogError (CatalogGraph rules) :=
  if hids : (objects.map (·.id)).Nodup then
    if hedges : edges.Nodup then
      match hends : edges.forM (validateEdgeEndpoints objects) with
      | .error error => .error error
      | .ok () =>
        match hrules : rules (definitions objects) (· ∈ edges) with
        | none => .ok ⟨objects, edges, hids, hedges, hends, hrules⟩
        | some detail => .error (.rule detail)
    else .error .duplicateCatalogEdge
  else .error .duplicateCatalogObject

def object (graph : CatalogGraph rules) (id : ObjectId) : Option (CatalogObject P) :=
  findObject graph.objects id

def requiredFormatMinor (graph : CatalogGraph rules) : ℕ :=
  (graph.objects.map (·.kind.minimumCatalogMinor) ++
    graph.edges.map (·.kind.minimumCatalogMinor)).foldr max BASELINE_CATALOG_MINOR

end CatalogGraph

structure CatalogPackMeta where
  databaseId : BitVec 128
  catalogId : BitVec 128
  catalogGeneration : ℕ
  snapshotLsn : ℕ
  createdUnixNs : ℕ
  databaseId_ne_zero : databaseId ≠ 0
  catalogId_ne_zero : catalogId ≠ 0
  catalogGeneration_ne_zero : catalogGeneration ≠ 0
  catalogGeneration_lt : catalogGeneration < 2 ^ 64

structure CatalogGeneration (rules : GraphRules P) where
  formatMinor : ℕ
  packMeta : CatalogPackMeta
  graph : CatalogGraph rules
  formatMinor_le : formatMinor ≤ LATEST_CATALOG_MINOR
  required_le : graph.requiredFormatMinor ≤ formatMinor

/-! ## Mutation sets -/

structure ObjectPrecondition where
  objectId : ObjectId
  expectedKind : ObjectKind
  expectedDefinitionRevision : ℕ

inductive CatalogMutation (P : Type) where
  | create (object : CatalogObject P)
  | alter (expected : ObjectPrecondition) (replacement : CatalogObject P)
  | drop (expected : ObjectPrecondition)
  | rename (expected : ObjectPrecondition) (newName : String)

namespace CatalogMutation

def targetId : CatalogMutation P → ObjectId
  | create object => object.id
  | alter expected _ | drop expected | rename expected _ => expected.objectId

def requiredFormatMinor : CatalogMutation P → ℕ
  | create object | alter _ object => object.kind.minimumCatalogMinor
  | drop expected | rename expected _ => expected.expectedKind.minimumCatalogMinor

def droppedId : CatalogMutation P → Option ObjectId
  | drop expected => some expected.objectId
  | _ => none

end CatalogMutation

structure CatalogMutationSet (P : Type) where
  formatMinor : ℕ
  expectedDatabaseId : BitVec 128
  expectedCatalogId : BitVec 128
  expectedCatalogGeneration : ℕ
  mutations : List (CatalogMutation P)
  edgeRemovals : List CatalogEdge
  edgeAdditions : List CatalogEdge

def MAX_CATALOG_MUTATIONS_PER_SET : ℕ := 262144
def MAX_CATALOG_EDGE_DELTAS_PER_SET : ℕ := 1048576

def requiredFormatMinor (mutations : List (CatalogMutation P))
    (edgeRemovals edgeAdditions : List CatalogEdge) : ℕ :=
  (mutations.map (·.requiredFormatMinor) ++
    (edgeRemovals ++ edgeAdditions).map (·.kind.minimumCatalogMinor)).foldr max
      BASELINE_CATALOG_MINOR

def enforceCount (field : String) (actual limit : ℕ) : Except CatalogError Unit :=
  require (actual ≤ limit) (.catalogMutationLimitExceeded field actual limit)

namespace CatalogMutationSet

def newForMinor (formatMinor : ℕ) (databaseId catalogId : BitVec 128) (generation : ℕ)
    (mutations : List (CatalogMutation P)) (edgeRemovals edgeAdditions : List CatalogEdge) :
    Except CatalogError (CatalogMutationSet P) := do
  require (formatMinor ≤ LATEST_CATALOG_MINOR) (.unsupportedCatalogMinor formatMinor)
  require (requiredFormatMinor mutations edgeRemovals edgeAdditions ≤ formatMinor)
    (.invalidCatalogMutation "mutation payload requires a newer catalog minor")
  require (databaseId ≠ 0 ∧ catalogId ≠ 0)
    (.invalidCatalogMutation "expected database/catalog identity is zero")
  require (generation ≠ 0) (.invalidCatalogMutation "expected catalog generation is zero")
  require (¬(mutations.isEmpty ∧ edgeRemovals.isEmpty ∧ edgeAdditions.isEmpty))
    (.invalidCatalogMutation "mutation set is empty")
  enforceCount "object mutation count" mutations.length MAX_CATALOG_MUTATIONS_PER_SET
  enforceCount "edge removal count" edgeRemovals.length MAX_CATALOG_EDGE_DELTAS_PER_SET
  enforceCount "edge addition count" edgeAdditions.length MAX_CATALOG_EDGE_DELTAS_PER_SET
  enforceCount "total edge delta count" (edgeRemovals.length + edgeAdditions.length)
    MAX_CATALOG_EDGE_DELTAS_PER_SET
  require (mutations.map (·.targetId)).Nodup
    (.invalidCatalogMutation "multiple object mutations target the same object ID")
  require (edgeRemovals.Nodup ∧ edgeAdditions.Nodup)
    (.invalidCatalogMutation "edge delta contains a duplicate")
  require (∀ edge ∈ edgeRemovals, edge ∉ edgeAdditions)
    (.invalidCatalogMutation "the same edge is both removed and added")
  .ok ⟨formatMinor, databaseId, catalogId, generation,
    mutations.insertionSort fun a b => a.targetId ≤ b.targetId, edgeRemovals, edgeAdditions⟩

end CatalogMutationSet

/-! ## Applying a mutation set -/

def preconditionFailure {α : Type} (id : ObjectId) (detail : String) : Except CatalogError α :=
  .error (.catalogObjectPreconditionFailed id detail)

def currentObject (current : CatalogGraph rules) (expected : ObjectPrecondition) :
    Except CatalogError (CatalogObject P) :=
  match current.object expected.objectId with
  | none => preconditionFailure expected.objectId "object is absent"
  | some object =>
    if object.kind ≠ expected.expectedKind then
      preconditionFailure object.id "object kind differs"
    else if object.definitionRevision ≠ expected.expectedDefinitionRevision then
      preconditionFailure object.id "definition revision differs"
    else .ok object

def validateObjectPrecondition (current : CatalogGraph rules) :
    CatalogMutation P → Except CatalogError Unit
  | .create object =>
    if (current.object object.id).isSome then
      preconditionFailure object.id "object already exists"
    else .ok ()
  | .alter expected _ | .drop expected | .rename expected _ => do
    discard (currentObject current expected)

def validateAlterReplacement (current : CatalogObject P) (expected : ObjectPrecondition)
    (replacement : CatalogObject P) : Except CatalogError Unit :=
  if replacement.id ≠ current.id then
    preconditionFailure expected.objectId "ALTER replacement changes object ID"
  else if replacement.kind ≠ current.kind then
    preconditionFailure expected.objectId "ALTER replacement changes object kind"
  else if replacement.namespaceId ≠ current.namespaceId then
    preconditionFailure expected.objectId "ALTER changes namespace"
  else if replacement.parentId ≠ current.parentId then
    preconditionFailure expected.objectId "ALTER changes containment parent"
  else if 2 ^ 64 ≤ expected.expectedDefinitionRevision + 1 then
    .error (.invalidCatalogMutation "object definition revision overflow")
  else if replacement.definitionRevision ≠ expected.expectedDefinitionRevision + 1 then
    preconditionFailure expected.objectId
      "ALTER replacement revision is not expected revision plus one"
  else .ok ()

/-- The next revision of an object, under another name. -/
def renamed (object : CatalogObject P) (newName : String) : Except CatalogError (CatalogObject P) :=
  if object.name = newName then
    preconditionFailure object.id "rename does not change the catalog name"
  else if h : object.definitionRevision + 1 < 2 ^ 64 then
    .ok { object with
      name := newName, definitionRevision := object.definitionRevision + 1
      revision_ne_zero := object.next_ne_zero, revision_lt := h }
  else .error (.invalidCatalogMutation "object definition revision overflow")

/-- One turn of the loop over the mutations. -/
def applyMutation (current : CatalogGraph rules) (objects : List (CatalogObject P)) :
    CatalogMutation P → Except CatalogError (List (CatalogObject P))
  | .create object =>
    if object.definitionRevision ≠ 1 then
      preconditionFailure object.id "new object definition revision is not one"
    else if (findObject objects object.id).isSome then
      preconditionFailure object.id "object already exists"
    else .ok (insertObject object objects)
  | .alter expected replacement => do
    let object ← currentObject current expected
    validateAlterReplacement object expected replacement
    .ok (insertObject replacement objects)
  | .drop expected => .ok (removeObject expected.objectId objects)
  | .rename expected newName => do
    let object ← currentObject current expected
    let object ← renamed object newName
    .ok (insertObject object objects)

def removeEdge (edges : List CatalogEdge) (edge : CatalogEdge) :
    Except CatalogError (List CatalogEdge) :=
  if edge ∈ edges then .ok (edges.erase edge)
  else .error (.invalidCatalogMutation "edge removal precondition is absent")

def addEdge (edges : List CatalogEdge) (edge : CatalogEdge) :
    Except CatalogError (List CatalogEdge) :=
  if edge ∈ edges then .error (.invalidCatalogMutation "edge addition already exists")
  else .ok (edges ++ [edge])

def validateGenerationPrecondition (set : CatalogMutationSet P)
    (current : CatalogGeneration rules) : Except CatalogError Unit := do
  require (set.expectedDatabaseId = current.packMeta.databaseId)
    (.staleCatalogMutation "database identity")
  require (set.expectedCatalogId = current.packMeta.catalogId)
    (.staleCatalogMutation "catalog identity")
  require (set.expectedCatalogGeneration = current.packMeta.catalogGeneration)
    (.staleCatalogMutation "catalog generation")

def CatalogMutationSet.apply (set : CatalogMutationSet P) (current : CatalogGeneration rules) :
    Except CatalogError (CatalogGraph rules) := do
  validateGenerationPrecondition set current
  set.mutations.forM (validateObjectPrecondition current.graph)
  let objects ← set.mutations.foldlM (applyMutation current.graph) current.graph.objects
  let edges ← set.edgeRemovals.foldlM removeEdge current.graph.edges
  let dropped := set.mutations.filterMap (·.droppedId)
  let kept := edges.filter fun edge =>
    edge.sourceObjectId ∉ dropped ∧ edge.targetObjectId ∉ dropped
  let edges ← set.edgeAdditions.foldlM addEdge kept
  let graph ← CatalogGraph.build rules objects edges
  require (set.formatMinor = max current.formatMinor graph.requiredFormatMinor)
    (.invalidCatalogMutation
      "mutation-set format minor would upgrade or downgrade outside its declared envelope")
  .ok graph

/-! ## Lemmas -/

@[simp]
theorem require_eq_ok {condition : Prop} [Decidable condition] {error : CatalogError} {u : Unit} :
    require condition error = .ok u ↔ condition := by
  by_cases h : condition <;> simp [require, h]

variable {set : CatalogMutationSet P}

theorem CatalogMutationSet.newForMinor_eq_ok {minor generation : ℕ} {database catalog : BitVec 128}
    {mutations : List (CatalogMutation P)} {removals additions : List CatalogEdge} :
    newForMinor minor database catalog generation mutations removals additions = .ok set ↔
      minor ≤ LATEST_CATALOG_MINOR ∧ requiredFormatMinor mutations removals additions ≤ minor ∧
      (database ≠ 0 ∧ catalog ≠ 0) ∧ generation ≠ 0 ∧
      ¬(mutations.isEmpty ∧ removals.isEmpty ∧ additions.isEmpty) ∧
      mutations.length ≤ MAX_CATALOG_MUTATIONS_PER_SET ∧
      removals.length + additions.length ≤ MAX_CATALOG_EDGE_DELTAS_PER_SET ∧
      (mutations.map (·.targetId)).Nodup ∧ (removals.Nodup ∧ additions.Nodup) ∧
      (∀ edge ∈ removals, edge ∉ additions) ∧
      set = ⟨minor, database, catalog, generation,
        mutations.insertionSort fun a b => a.targetId ≤ b.targetId, removals, additions⟩ := by
  simp only [newForMinor, enforceCount, Except.bind_eq_ok, require_eq_ok, exists_const,
    Except.ok.injEq, eq_comm (b := set)]
  refine ⟨?_, ?_⟩
  · rintro ⟨h1, h2, h3, h4, h5, h6, -, -, h7, h8⟩
    exact ⟨h1, h2, h3, h4, h5, h6, h7, h8⟩
  · rintro ⟨h1, h2, h3, h4, h5, h6, h7, h8⟩
    exact ⟨h1, h2, h3, h4, h5, h6, by omega, by omega, h7, h8⟩

section

variable {objects : List (CatalogObject P)} {o : CatalogObject P} {id : ObjectId}

theorem findObject_insert (o : CatalogObject P) (objects : List (CatalogObject P)) (id : ObjectId) :
    findObject (insertObject o objects) id =
      if id = o.id then some o else findObject objects id := by
  by_cases h : id = o.id
  · simp [findObject, insertObject, h]
  · have hne : o.id ≠ id := Ne.symm h
    rw [if_neg h, findObject, insertObject, find?_cons_of_neg (by simpa using hne), find?_filter]
    refine congrArg (fun p => objects.find? p) (funext fun x => ?_)
    by_cases hx : x.id = id
    · simp [hx, h]
    · simp [hx]

theorem findObject_remove (id' : ObjectId) (objects : List (CatalogObject P)) (id : ObjectId) :
    findObject (removeObject id' objects) id =
      if id = id' then none else findObject objects id := by
  rw [findObject, removeObject, find?_filter]
  by_cases h : id = id'
  · subst h
    simp
  · rw [if_neg h]
    refine congrArg (fun p => objects.find? p) (funext fun x => ?_)
    by_cases hx : x.id = id
    · simp [hx, h]
    · simp [hx]

theorem id_of_findObject (h : findObject objects id = some o) : o.id = id := by
  simpa using find?_some h

theorem mem_of_findObject (h : findObject objects id = some o) : o ∈ objects :=
  mem_of_find?_eq_some h

theorem nodup_remove (h : (objects.map (·.id)).Nodup) (id : ObjectId) :
    ((removeObject id objects).map (·.id)).Nodup :=
  h.sublist (filter_sublist.map _)

theorem nodup_insert (h : (objects.map (·.id)).Nodup) (o : CatalogObject P) :
    ((insertObject o objects).map (·.id)).Nodup := by
  rw [insertObject, map_cons, nodup_cons]
  refine ⟨?_, nodup_remove h o.id⟩
  simp

theorem findObject_of_mem (h : (objects.map (·.id)).Nodup) (ho : o ∈ objects) :
    findObject objects o.id = some o := by
  induction objects with
  | nil => cases ho
  | cons x objects ih =>
    rw [map_cons, nodup_cons] at h
    rw [findObject, find?_cons]
    obtain rfl | ho := mem_cons.mp ho
    · simp
    · have hne : x.id ≠ o.id := fun heq => h.1 (heq ▸ mem_map_of_mem ho)
      simpa [hne, findObject] using ih h.2 ho

end

section

variable {current : CatalogGraph rules} {objects objects' : List (CatalogObject P)}
  {m : CatalogMutation P} {expected : ObjectPrecondition} {o r : CatalogObject P}

theorem currentObject_eq_ok : currentObject current expected = .ok o ↔
    current.object expected.objectId = some o ∧ o.kind = expected.expectedKind ∧
      o.definitionRevision = expected.expectedDefinitionRevision := by
  unfold currentObject
  cases h : current.object expected.objectId with
  | none => exact ⟨nofun, nofun⟩
  | some x =>
    dsimp only
    split_ifs with hkind hrevision
    · refine ⟨nofun, fun ⟨hx, hk, _⟩ => ?_⟩
      cases hx
      exact absurd hk hkind
    · refine ⟨nofun, fun ⟨hx, _, hr⟩ => ?_⟩
      cases hx
      exact absurd hr hrevision
    · refine ⟨fun hx => ?_, fun ⟨hx, _⟩ => by cases hx; rfl⟩
      cases hx
      exact ⟨rfl, not_not.mp hkind, not_not.mp hrevision⟩

theorem validateAlterReplacement_eq_ok {u : Unit} :
    validateAlterReplacement o expected r = .ok u ↔ r.id = o.id ∧ r.kind = o.kind ∧
      r.namespaceId = o.namespaceId ∧ r.parentId = o.parentId ∧
      r.definitionRevision = expected.expectedDefinitionRevision + 1 := by
  have hlt := r.revision_lt
  unfold validateAlterReplacement preconditionFailure
  split_ifs <;> grind

/-- The object that a mutation leaves behind. -/
def CatalogMutation.outcome (current : CatalogGraph rules) :
    CatalogMutation P → Option (CatalogObject P)
  | create object | alter _ object => some object
  | drop _ => none
  | rename expected newName =>
    (currentObject current expected >>= fun o => renamed o newName).toOption

def replaceObject (id : ObjectId) (result : Option (CatalogObject P))
    (objects : List (CatalogObject P)) : List (CatalogObject P) :=
  match result with
  | some object => insertObject object objects
  | none => removeObject id objects

theorem renamed_spec {newName : String} (h : renamed o newName = .ok r) :
    r.toCatalogDefinition = { o.toCatalogDefinition with name := newName } ∧
      r.definitionRevision = o.definitionRevision + 1 := by
  unfold renamed at h
  split_ifs at h
  · cases h
  · cases h
    exact ⟨rfl, rfl⟩

section

variable (h : applyMutation current objects m = .ok objects')

include h

/-- **One turn**: what the mutation leaves behind takes the place of its target. -/
theorem applyMutation_spec :
    objects' = replaceObject m.targetId (m.outcome current) objects ∧
      ∀ r, m.outcome current = some r → r.id = m.targetId := by
  cases m with
  | create object =>
    unfold applyMutation at h
    dsimp only at h
    split_ifs at h
    · cases h
    · cases h
    · cases h
      exact ⟨rfl, fun r hr => congrArg (·.id) (Option.some.inj hr).symm⟩
  | alter expected replacement =>
    obtain ⟨o, ho, h⟩ := ok_of_bind h
    obtain ⟨u, hvalid, h⟩ := ok_of_bind h
    cases h
    refine ⟨rfl, fun r hr => ?_⟩
    cases hr
    exact (validateAlterReplacement_eq_ok.mp hvalid).1.trans
      (id_of_findObject (currentObject_eq_ok.mp ho).1)
  | drop expected =>
    cases h
    exact ⟨rfl, nofun⟩
  | rename expected newName =>
    obtain ⟨o, ho, h⟩ := ok_of_bind h
    obtain ⟨r, hr, h⟩ := ok_of_bind h
    cases h
    have hout : (CatalogMutation.rename expected newName).outcome current = some r := by
      simp only [CatalogMutation.outcome, ho, hr, ok_bind]
      rfl
    rw [hout]
    refine ⟨rfl, fun r' hr' => ?_⟩
    cases hr'
    exact (congrArg (·.id) (renamed_spec hr).1).trans
      (id_of_findObject (currentObject_eq_ok.mp ho).1)

theorem applyMutation_find (id : ObjectId) :
    findObject objects' id =
      if id = m.targetId then m.outcome current else findObject objects id := by
  obtain ⟨rfl, hid⟩ := applyMutation_spec h
  cases hout : m.outcome current with
  | none => exact findObject_remove m.targetId objects id
  | some r =>
    rw [← hid r hout]
    exact findObject_insert r objects id

theorem applyMutation_nodup
    (hnodup : (objects.map (·.id)).Nodup) : (objects'.map (·.id)).Nodup := by
  obtain ⟨rfl, -⟩ := applyMutation_spec h
  cases m.outcome current with
  | none => exact nodup_remove hnodup m.targetId
  | some r => exact nodup_insert hnodup r

end

variable {l : List (CatalogMutation P)}

/-- **The loop over the mutations**, each for an object of its own. -/
theorem applyMutations_spec (h : l.foldlM (applyMutation current) objects = .ok objects')
    (htgts : (l.map (·.targetId)).Nodup) (hnodup : (objects.map (·.id)).Nodup) :
    (objects'.map (·.id)).Nodup ∧
    (∀ m ∈ l, findObject objects' m.targetId = m.outcome current) ∧
    (∀ id ∉ l.map (·.targetId), findObject objects' id = findObject objects id) ∧
    ∀ m ∈ l, ∃ before after, applyMutation current before m = .ok after := by
  induction l generalizing objects with
  | nil =>
    obtain rfl : objects = objects' := Except.ok.inj h
    exact ⟨hnodup, forall_mem_nil _, fun _ _ => rfl, forall_mem_nil _⟩
  | cons m l ih =>
    obtain ⟨middle, hm, h⟩ := ok_of_bind h
    obtain ⟨hfresh, htgts⟩ := nodup_cons.mp htgts
    obtain ⟨hids, hfind, hother, hall⟩ := ih h htgts (applyMutation_nodup hm hnodup)
    refine ⟨hids, forall_mem_cons.mpr ⟨?_, hfind⟩, fun id hid => ?_,
      forall_mem_cons.mpr ⟨⟨objects, middle, hm⟩, hall⟩⟩
    · rw [hother m.targetId hfresh, applyMutation_find hm, if_pos rfl]
    · rw [map_cons, mem_cons, not_or] at hid
      rw [hother id hid.2, applyMutation_find hm, if_neg hid.1]

/-- A mutation that a generation admits. -/
def CatalogMutation.Admitted (current : CatalogGraph rules) : CatalogMutation P → Prop
  | create object => object.definitionRevision = 1 ∧ current.object object.id = none
  | alter expected replacement => ∃ o, currentObject current expected = .ok o ∧
      validateAlterReplacement o expected replacement = .ok ()
  | drop expected => ∃ o, currentObject current expected = .ok o
  | rename expected newName => ∃ o r, currentObject current expected = .ok o ∧
      renamed o newName = .ok r

theorem CatalogMutation.Admitted.validate (h : m.Admitted current) :
    validateObjectPrecondition current m = .ok () := by
  cases m with
  | create object => simp [validateObjectPrecondition, h.2]
  | alter expected replacement =>
    obtain ⟨o, ho, -⟩ := h
    simp only [validateObjectPrecondition, ho]
    rfl
  | drop expected =>
    obtain ⟨o, ho⟩ := h
    simp only [validateObjectPrecondition, ho]
    rfl
  | rename expected newName =>
    obtain ⟨o, r, ho, -⟩ := h
    simp only [validateObjectPrecondition, ho]
    rfl

theorem CatalogMutation.Admitted.apply (h : m.Admitted current)
    (hsame : findObject objects m.targetId = current.object m.targetId) :
    ∃ objects', applyMutation current objects m = .ok objects' := by
  cases m with
  | create object =>
    rw [CatalogMutation.targetId, h.2] at hsame
    exact ⟨_, by simp [applyMutation, h.1, hsame]; rfl⟩
  | alter expected replacement =>
    obtain ⟨o, ho, hvalid⟩ := h
    exact ⟨_, by simp only [applyMutation, ho, hvalid, ok_bind]; rfl⟩
  | drop expected => exact ⟨_, rfl⟩
  | rename expected newName =>
    obtain ⟨o, r, ho, hr⟩ := h
    exact ⟨_, by simp only [applyMutation, ho, hr, ok_bind]; rfl⟩

theorem exists_applyMutations (h : ∀ m ∈ l, m.Admitted current) (htgts : (l.map (·.targetId)).Nodup)
    (hsame : ∀ m ∈ l, findObject objects m.targetId = current.object m.targetId) :
    ∃ objects', l.foldlM (applyMutation current) objects = .ok objects' := by
  induction l generalizing objects with
  | nil => exact ⟨objects, rfl⟩
  | cons m l ih =>
    obtain ⟨hm, h⟩ := forall_mem_cons.mp h
    obtain ⟨hfresh, htgts⟩ := nodup_cons.mp htgts
    obtain ⟨hsame, hrest⟩ := forall_mem_cons.mp hsame
    obtain ⟨middle, hmiddle⟩ := hm.apply hsame
    rw [foldlM_cons, hmiddle]
    refine ih h htgts fun m' hm' => ?_
    rw [applyMutation_find hmiddle, if_neg, hrest m' hm']
    exact fun heq => hfresh (mem_map.mpr ⟨m', hm', heq⟩)

end

variable {graph : CatalogGraph rules}

theorem CatalogMutationSet.apply_eq_ok {current : CatalogGeneration rules} :
    set.apply current = .ok graph ↔
      (set.expectedDatabaseId = current.packMeta.databaseId ∧
        set.expectedCatalogId = current.packMeta.catalogId ∧
        set.expectedCatalogGeneration = current.packMeta.catalogGeneration) ∧
      set.mutations.forM (validateObjectPrecondition current.graph) = .ok () ∧
      ∃ objects, set.mutations.foldlM (applyMutation current.graph) current.graph.objects =
          .ok objects ∧
        ∃ edges, set.edgeRemovals.foldlM removeEdge current.graph.edges = .ok edges ∧
          ∃ edges', set.edgeAdditions.foldlM addEdge (edges.filter fun edge =>
              edge.sourceObjectId ∉ set.mutations.filterMap (·.droppedId) ∧
                edge.targetObjectId ∉ set.mutations.filterMap (·.droppedId)) = .ok edges' ∧
            CatalogGraph.build rules objects edges' = .ok graph ∧
            set.formatMinor = max current.formatMinor graph.requiredFormatMinor := by
  simp only [CatalogMutationSet.apply, validateGenerationPrecondition, Except.bind_eq_ok,
    require_eq_ok, exists_const]
  refine and_congr_right fun _ => ⟨?_, ?_⟩
  · rintro ⟨u, hvalid, objects, hobjs, edges, hedges, edges', hedges', g, hbuild, hminor, hg⟩
    cases hg
    exact ⟨hvalid, objects, hobjs, edges, hedges, edges', hedges', hbuild, hminor⟩
  · rintro ⟨hvalid, objects, hobjs, edges, hedges, edges', hedges', hbuild, hminor⟩
    exact ⟨(), hvalid, objects, hobjs, edges, hedges, edges', hedges', graph, hbuild, hminor,
      rfl⟩

variable {objects : List (CatalogObject P)}

theorem CatalogGraph.build_of {edges : List CatalogEdge} (hids : (objects.map (·.id)).Nodup)
    (hedges : edges.Nodup) (hends : edges.forM (validateEdgeEndpoints objects) = .ok ())
    (hrules : rules (definitions objects) (· ∈ edges) = none) :
    CatalogGraph.build rules objects edges = .ok ⟨objects, edges, hids, hedges, hends, hrules⟩ := by
  unfold CatalogGraph.build
  rw [dif_pos hids, dif_pos hedges]
  split
  next error herror => cases herror.symm.trans hends
  next =>
    split
    next => rfl
    next detail hdetail => cases hdetail.symm.trans hrules

/-! ### Edges -/

section

variable {edges l : List CatalogEdge}

theorem foldlM_removeEdge (hl : l.Nodup) (h : ∀ edge ∈ l, edge ∈ edges) :
    l.foldlM removeEdge edges = .ok (edges.diff l) := by
  induction l generalizing edges with
  | nil => rfl
  | cons edge l ih =>
    obtain ⟨hedge, h⟩ := forall_mem_cons.mp h
    obtain ⟨hfresh, hl⟩ := nodup_cons.mp hl
    rw [foldlM_cons, removeEdge, if_pos hedge, diff_cons]
    refine ih hl fun x hx => (mem_erase_of_ne ?_).mpr (h x hx)
    rintro rfl
    exact hfresh hx

theorem foldlM_addEdge (hl : l.Nodup) (h : ∀ edge ∈ l, edge ∉ edges) :
    l.foldlM addEdge edges = .ok (edges ++ l) := by
  induction l generalizing edges with
  | nil => rw [append_nil]; rfl
  | cons edge l ih =>
    obtain ⟨hedge, h⟩ := forall_mem_cons.mp h
    obtain ⟨hfresh, hl⟩ := nodup_cons.mp hl
    have hrest : ∀ x ∈ l, x ∉ edges ++ [edge] := ?_
    · rw [foldlM_cons, addEdge, if_neg hedge, append_cons edges edge l]
      exact ih hl hrest
    intro x hx hmem
    obtain hmem | hmem := mem_append.mp hmem
    · exact h x hx hmem
    · exact hfresh (mem_singleton.mp hmem ▸ hx)

theorem validateEdgeEndpoints_forM {u : PUnit} :
    edges.forM (validateEdgeEndpoints objects) = .ok u ↔
      ∀ edge ∈ edges, (findObject objects edge.sourceObjectId).isSome ∧
        (findObject objects edge.targetObjectId).isSome := by
  rw [forM_eq_ok_iff]
  refine forall₂_congr fun edge _ => ?_
  rw [validateEdgeEndpoints, Except.bind_eq_ok]
  simp

theorem foldr_max_le {l : List ℕ} {minor : ℕ} :
    l.foldr max BASELINE_CATALOG_MINOR ≤ minor ↔ ∀ n ∈ l, n ≤ minor := by
  induction l with
  | nil => simp [BASELINE_CATALOG_MINOR]
  | cons n l ih => simp [ih]

theorem requiredFormatMinor_le {minor : ℕ} :
    graph.requiredFormatMinor ≤ minor ↔
      (∀ id o, graph.object id = some o → o.kind.minimumCatalogMinor ≤ minor) ∧
        ∀ edge ∈ graph.edges, edge.kind.minimumCatalogMinor ≤ minor := by
  rw [CatalogGraph.requiredFormatMinor, foldr_max_le]
  simp only [mem_append, mem_map, or_imp, forall_and, forall_exists_index, and_imp,
    forall_apply_eq_imp_iff₂]
  refine and_congr_left fun _ => ⟨fun h id o ho => h o (mem_of_findObject ho), fun h o ho => ?_⟩
  exact h o.id o (findObject_of_mem graph.ids_nodup ho)

end

end RadixDb.Catalog

import RadixDb.Lib.Checked
import RadixDb.Lib.Run
import RadixDb.Value.Value

/-!
# Compiled UPDATE and DELETE by primary key

A cached `UPDATE … WHERE pk = …` or `DELETE … WHERE pk = …` has a slot for its compiled plan: the
schema it was compiled for, the places of the columns in it, and the schema epoch. An execution
looks at the slot twice. Under the read lock it runs a plan only at the plan's epoch. Under the
write lock, where it means to compile the statement again, it runs any plan it finds.

Executions take no fence against schema changes, so the steps of both are interleaved. An execution
checks the slot, compiles, which reads the schema, stores, which reads the epoch, and calls the
table. A schema change publishes its schemas and moves the epoch on later (operations.rs,
`publish_transactional_ddl`). The schema and the foreign keys are read in one step, and the locks
are let go before the call; the code holds them longer, which allows less.

A plan stays in its slot, so **a plan that the epoch has left behind is called ever after**, which
is what `dropped_column_unnoticed` shows. **A call runs what compiling the statement at that moment
would run if no step of a schema change has found a plan in the slot, with the writer or with a
session that is about to call** (`prepared_runs_current`). The condition is about the moments of the
schema changes and says nothing of what is executed afterwards.
-/

namespace RadixDb

open Option
namespace FastPath

/-! ## Statements and schemas -/

/-- The expressions that the fast path tells apart. -/
inductive Expression where
  | identifier (value : String)
  | qualifiedIdentifier (name : String)
  | integerLiteral (value : {i : ℤ // InI64 i})
  | floatLiteral (value : F64)
  | stringLiteral (value : String)
  | booleanLiteral (value : Bool)
  | nullLiteral
  | parameter (name : String) (index : ℕ)
  | unary (operator : String) (right : Expression)
  | binary (operator : String) (left right : Expression)
  | other

structure SchemaColumn where
  name : String
  nameLower : String
  dataType : DataType
  hasCheck : Bool

structure Schema where
  columns : List SchemaColumn
  primaryKeyIndices : List ℕ
  hasForeignKeys : Bool

/-- `column_index_map`, with the column itself. -/
def Schema.column (schema : Schema) (nameLower : String) : Option (SchemaColumn × ℕ) :=
  schema.columns.zipIdx.find? fun c => c.1.nameLower = nameLower

/-- The published schemas. `isReferenced` is whether `find_referencing_fks` finds any. -/
structure Engine where
  schemaEpoch : ℕ
  tableSchema : String → Option Schema
  isReferenced : String → Bool

structure ExecutionContext where
  inTransaction : Bool
  params : List Value
  namedParam : String → Option Value
  coerce : Value → DataType → Except String Value

variable (ctx : ExecutionContext)

/-- The context of an execution that has only a slice of parameters. -/
def ExecutionContext.borrowed : ExecutionContext :=
  { ctx with namedParam := fun _ => none }

/-! ## Where values come from -/

inductive IntegerPkAdmission where
  | exact (n : ℤ)
  | noMatch
deriving DecidableEq

def integerPkAdmission : Value → Option IntegerPkAdmission
  | .integer n => some (.exact n)
  | .float f =>
    let c := f.classify
    if c.isFinite ∧ c.fract = 0 ∧ compareIntegerFloat c.asI64 f = .eq then some (.exact c.asI64)
    else some .noMatch
  | _ => none

/-- `PkValueSource` (literals of `ℤ`) and `UpdateValueSource` (literals of `Value`). -/
inductive ValueSource (α : Type) where
  | literal (value : α)
  | parameter (index : ℕ)
  | namedParameter (name : String)

namespace ValueSource

variable {α β : Type}

def ofParameter (name : String) (index : ℕ) : Option (ValueSource α) :=
  if name.toList.head? = some ':' then some (.namedParameter (String.ofList name.toList.tail))
  else if 0 < index then some (.parameter (index - 1))
  else none

def isLiteral : ValueSource α → Bool
  | .literal _ => true
  | _ => false

/-- `extract_pk_value_from_source`. -/
def extractPk : ValueSource ℤ → Option IntegerPkAdmission
  | .literal n => some (.exact n)
  | .parameter i => ctx.params[i]?.bind integerPkAdmission
  | .namedParameter name => (ctx.namedParam name).bind integerPkAdmission

end ValueSource

def columnName : Expression → Option String
  | .identifier value => some value
  | .qualifiedIdentifier name => some name
  | _ => none

/-- The value that a key is compared with, and where it came from. A float that is no integer has a
stand-in for its source, which is never stored. -/
def keyValue : Expression → Option (IntegerPkAdmission × ValueSource ℤ)
  | .integerLiteral n => some (.exact n, .literal n)
  | .floatLiteral f => (integerPkAdmission (.float f)).map fun
      | .exact n => (.exact n, .literal n)
      | .noMatch => (.noMatch, .literal 0)
  | .parameter name index => do
    let source ← ValueSource.ofParameter name index
    let value ← source.extractPk ctx
    return (value, source)
  | _ => none

def extractColEqVal (pkColumn : String) (col val : Expression) :
    Option (IntegerPkAdmission × ValueSource ℤ) := do
  let name ← columnName col
  let found ← keyValue ctx val
  -- `eq_ignore_ascii_case`
  if name.toList.map Char.toLower = pkColumn.toList.map Char.toLower then some found else none

def extractPkEqualityValue (pkColumn : String) :
    Expression → Option (IntegerPkAdmission × ValueSource ℤ)
  | .binary operator left right =>
    if operator = "=" then
      (extractColEqVal ctx pkColumn left right).or (extractColEqVal ctx pkColumn right left)
    else none
  | _ => none

def extractValueSource : Expression → Option (ValueSource Value)
  | .integerLiteral n => some (.literal (.integer n))
  | .floatLiteral f => some (.literal (.float f))
  | .stringLiteral s => some (.literal (.text s))
  | .booleanLiteral b => some (.literal (.boolean b))
  | .nullLiteral => some (.literal (.null .null))
  | .unary operator (.integerLiteral n) =>
    if operator = "-" then some (.literal (.integer (if h : InI64 (-n) then ⟨-n, h⟩ else n)))
    else none
  | .unary operator (.floatLiteral f) =>
    if operator = "-" then some (.literal (.float f.neg)) else none
  | .parameter name index => ValueSource.ofParameter name index
  | _ => none

/-! ## Plans -/

/-- `CompiledPkUpdate`, and `CompiledPkDelete` with nothing to update, without the epoch, which is
read later. -/
structure CompiledPk (α : Type) where
  tableName : String
  schema : Schema
  pkColumnName : String
  pkValueSource : ValueSource ℤ
  updates : α

inductive CompiledExecution (α : Type) where
  | unknown
  | notOptimizable (epoch : ℕ)
  | compiled (plan : CompiledPk α) (cachedEpoch : ℕ)
  | otherKind

/-- The call of `execute_pk_update_minimal` or `execute_pk_delete_minimal`: nothing else of a plan
reaches the table. -/
structure Call (β : Type) where
  tableName : String
  pkColumnName : String
  schema : Schema
  pkValue : ℤ
  updates : β

inductive BindError where
  | missing (message : String)
  | coercion (message : String)

/-- Why a statement is not compiled. -/
inductive Stop where
  | fallBack
  | notOptimizable
  | refuse (message : String)
  | noRows

def orStop {α : Type} (stop : Stop) (x : Option α) : Except Stop α :=
  x.elim (.error stop) .ok

/-- A statement of the fast path, with what an UPDATE and a DELETE do differently. -/
structure Statement (α β : Type) where
  tableName : String
  whereClause : Option Expression
  hasReturning : Bool
  admits : Engine → Schema → SchemaColumn × ℕ → Except Stop Unit
  compileUpdates : Schema → Except Stop α
  bindUpdates : ExecutionContext → α → Except BindError β

structure CompiledUpdateColumn where
  columnIdx : ℕ
  columnType : DataType
  valueSource : ValueSource Value

structure UpdateStatement where
  tableName : String
  updates : List (String × Expression)
  whereClause : Option Expression
  hasReturning : Bool

def CompiledUpdateColumn.bind (u : CompiledUpdateColumn) : Except BindError (ℕ × Value) := do
  let value ← match u.valueSource with
    | .literal v => .ok v
    | .parameter i =>
      (ctx.params[i]?).elim (.error (.missing s!"missing positional parameter ${i + 1}")) .ok
    | .namedParameter name =>
      (ctx.namedParam name).elim (.error (.missing s!"missing named parameter :{name}")) .ok
  let value ← (ctx.coerce value u.columnType).mapError .coercion
  return (u.columnIdx, value)

/-- `lower` is `str::to_lowercase`. -/
def UpdateStatement.statement (lower : String → String) (stmt : UpdateStatement) :
    Statement (List CompiledUpdateColumn) (List (ℕ × Value)) where
  tableName := stmt.tableName
  whereClause := stmt.whereClause
  hasReturning := stmt.hasReturning
  admits engine schema pk := do
    let assigned := stmt.updates.filterMap fun u => schema.column (lower u.1)
    let name := pk.1.name
    if assigned.any (·.2 = pk.2) then
      throw (.refuse s!"cannot UPDATE primary key column '{name}'. Use DELETE + INSERT instead")
    if schema.hasForeignKeys || engine.isReferenced stmt.tableName then throw .notOptimizable
    if assigned.any (·.1.hasCheck) then throw .notOptimizable
  compileUpdates schema := stmt.updates.mapM fun u => do
    let (column, i) ← orStop .notOptimizable (schema.column (lower u.1))
    let source ← orStop .notOptimizable (extractValueSource u.2)
    return ⟨i, column.dataType, source⟩
  bindUpdates ctx updates := updates.mapM (CompiledUpdateColumn.bind ctx)

structure DeleteStatement where
  tableName : String
  whereClause : Option Expression
  hasReturning : Bool

def DeleteStatement.statement (stmt : DeleteStatement) : Statement Unit Unit where
  tableName := stmt.tableName
  whereClause := stmt.whereClause
  hasReturning := stmt.hasReturning
  admits engine _ _ := if engine.isReferenced stmt.tableName then .error .notOptimizable else .ok ()
  compileUpdates _ := .ok ()
  bindUpdates _ _ := .ok ()

/-! ## Compiling and executing -/

namespace Statement

variable {α β : Type} (stmt : Statement α β) (engine : Engine)

/-- The checks that do not depend on the execution: what to filter by, the schema, and its key. -/
def target : Except Stop (Expression × Schema × String) := do
  let filter ← orStop .fallBack stmt.whereClause
  if stmt.hasReturning then throw .notOptimizable
  let schema ← orStop .notOptimizable (engine.tableSchema stmt.tableName)
  match schema.primaryKeyIndices with
  | [i] =>
    let pk ← orStop .notOptimizable schema.columns[i]?
    if pk.dataType ≠ .integer then throw .notOptimizable
    stmt.admits engine schema (pk, i)
    return (filter, schema, pk.name)
  | _ => throw .notOptimizable

variable (ctx : ExecutionContext)

def compile : Except Stop (CompiledPk α × IntegerPkAdmission) := do
  let (filter, schema, pkColumn) ← stmt.target engine
  let (value, source) ← orStop .notOptimizable (extractPkEqualityValue ctx pkColumn filter)
  let updates ← stmt.compileUpdates schema
  if value = .noMatch ∧ source.isLiteral then throw .noRows
  else return (⟨stmt.tableName, schema, pkColumn, source, updates⟩, value)

/-- `execute_compiled_pk_update`: no call is made if the key cannot match. -/
def execute (plan : CompiledPk α) (value : IntegerPkAdmission) (ctx : ExecutionContext) :
    Except BindError (Option (Call β)) :=
  match value with
  | .noMatch => .ok none
  | .exact n => do
    let updates ← stmt.bindUpdates ctx plan.updates
    return some ⟨plan.tableName, plan.pkColumnName, plan.schema, n, updates⟩

/-- A value to update is not among the parameters. -/
def isMissing (plan : CompiledPk α) (ctx : ExecutionContext) : Bool :=
  match (plan.pkValueSource.extractPk ctx).map (stmt.execute plan · ctx) with
  | some (.error (.missing _)) => true
  | _ => false

/-- What a step of the fast path says: nothing, so that the statement takes the ordinary path, or
the result, an error or the call that is made. -/
inductive Outcome (β : Type) where
  | underWay
  | fallBack
  | refused (message : String)
  | result (r : Except BindError (Option (Call β)))

/-- What compiling the statement afresh says. -/
def fresh : Outcome β :=
  match stmt.compile engine ctx with
  | .error .fallBack | .error .notOptimizable => .fallBack
  | .error (.refuse message) => .refused message
  | .error .noRows => .result (.ok none)
  | .ok (plan, value) => .result (stmt.execute plan value ctx)

/-! ## Interleavings -/

/-- Where a session is with an execution of the statement. -/
inductive Phase (α : Type) where
  /-- It has seen that it has to compile. -/
  | waits (ctx : ExecutionContext)
  /-- It is about to call the table. -/
  | calls (ctx : ExecutionContext) (plan : CompiledPk α) (cachedEpoch : ℕ)
    (value : IntegerPkAdmission)

/-- The session that has the write lock, and what it has compiled. -/
structure Writer (α : Type) where
  session : ℕ
  ctx : ExecutionContext
  found : Except Stop (CompiledPk α × IntegerPkAdmission)

structure State (α : Type) where
  engine : Engine
  slot : CompiledExecution α
  writer : Option (Writer α)
  sessions : ℕ → Option (Phase α)

/-- Sessions execute one cached statement, and others commit schema changes. -/
inductive Event where
  /-- `try_fast_pk_update_compiled` under the read lock. -/
  | tryFast (session : ℕ) (ctx : ExecutionContext)
  /-- `try_fast_pk_update_with_params`: only the parameters are there. -/
  | tryFastWithParams (session : ℕ) (ctx : ExecutionContext)
  /-- `compile_and_execute_pk_update`, up to the schema. -/
  | compile (session : ℕ)
  /-- The rest of it, from the epoch on. -/
  | store (session : ℕ)
  | call (session : ℕ)
  | publishSchemas (tableSchema : String → Option Schema) (isReferenced : String → Bool)
  | nextEpoch

def State.enter (s : State α) (q : ℕ) (phase : Option (Phase α)) : State α :=
  { s with sessions := Function.update s.sessions q phase }

/-- Go on to call with a plan, if the key has a value. -/
def State.use (s : State α) (q : ℕ) (ctx : ExecutionContext) (plan : CompiledPk α) (epoch : ℕ) :
    State α × Outcome β :=
  match plan.pkValueSource.extractPk ctx with
  | none => (s.enter q none, .fallBack)
  | some value => (s.enter q (some (.calls ctx plan epoch value)), .underWay)

def step (s : State α) (event : Event) : State α × Outcome β :=
  match event with
  | .tryFast q ctx =>
    if ctx.inTransaction then (s, .fallBack)
    else if s.writer.isSome then (s, .underWay)
    else match s.slot with
    | .notOptimizable epoch =>
      if s.engine.schemaEpoch = epoch then (s, .fallBack)
      else (s.enter q (some (.waits ctx)), .underWay)
    | .compiled plan epoch =>
      if s.engine.schemaEpoch = epoch then s.use q ctx plan epoch
      else (s.enter q (some (.waits ctx)), .underWay)
    | .unknown => (s.enter q (some (.waits ctx)), .underWay)
    | .otherKind => (s, .fallBack)
  | .tryFastWithParams q ctx =>
    if s.writer.isSome then (s, .underWay)
    else match s.slot with
    | .compiled plan epoch =>
      if s.engine.schemaEpoch ≠ epoch ∨ stmt.isMissing plan ctx.borrowed then (s, .fallBack)
      else s.use q ctx.borrowed plan epoch
    | _ => (s, .fallBack)
  | .compile q =>
    match s.sessions q, s.writer with
    | some (.waits ctx), none =>
      match s.slot with
      | .notOptimizable epoch =>
        if s.engine.schemaEpoch = epoch then (s.enter q none, .fallBack)
        else ({ s.enter q none with writer := some ⟨q, ctx, stmt.compile s.engine ctx⟩ }, .underWay)
      -- The double check does not look at the epoch.
      | .compiled plan epoch => s.use q ctx plan epoch
      | .unknown =>
        ({ s.enter q none with writer := some ⟨q, ctx, stmt.compile s.engine ctx⟩ }, .underWay)
      | .otherKind => (s.enter q none, .fallBack)
    | _, _ => (s, .underWay)
  | .store q =>
    match s.writer with
    | some w =>
      if w.session = q then
        match w.found with
        | .error .fallBack => ({ s with writer := none }, .fallBack)
        | .error .notOptimizable =>
          ({ s with writer := none, slot := .notOptimizable s.engine.schemaEpoch }, .fallBack)
        | .error (.refuse message) => ({ s with writer := none }, .refused message)
        | .error .noRows => ({ s with writer := none }, .result (.ok none))
        | .ok (plan, value) =>
          ({ s.enter q (some (.calls w.ctx plan s.engine.schemaEpoch value)) with
              writer := none, slot := .compiled plan s.engine.schemaEpoch }, .underWay)
      else (s, .underWay)
    | none => (s, .underWay)
  | .call q =>
    match s.sessions q with
    | some (.calls ctx plan _ value) => (s.enter q none, .result (stmt.execute plan value ctx))
    | _ => (s, .underWay)
  | .publishSchemas tableSchema isReferenced =>
    ({ s with engine := ⟨s.engine.schemaEpoch, tableSchema, isReferenced⟩ }, .underWay)
  | .nextEpoch =>
    ({ s with engine := { s.engine with schemaEpoch := s.engine.schemaEpoch + 1 } }, .underWay)

/-- The state after the first `k` events of a history that begins with a new statement. -/
abbrev after (engine : Engine) (events : List Event) (k : ℕ) : State α :=
  Run.after stmt.step ⟨engine, .unknown, none, fun _ => none⟩ events k

/-! ## A plan and the schema it was compiled for -/

variable {stmt} {source : ValueSource ℤ} {k : ℕ} {value : IntegerPkAdmission}

variable {ctx : ExecutionContext} {e : Expression}

theorem keyValue_eq
    (h : keyValue ctx e = some (value, source)) (hlit : ¬(value = .noMatch ∧ source.isLiteral))
    (ctx' : ExecutionContext) : keyValue ctx' e = (source.extractPk ctx').map (·, source) := by
  cases e with
  | integerLiteral n => cases h; rfl
  | floatLiteral f =>
    simp only [keyValue, map_eq_some_iff] at h ⊢
    obtain ⟨admission, ha, h⟩ := h
    rw [ha]
    cases admission with
    | exact n => cases h; rfl
    | noMatch => cases h; exact absurd ⟨rfl, rfl⟩ hlit
  | parameter name index =>
    simp only [keyValue, bind_eq_bind, bind_eq_some_iff, pure_def, some.injEq, Prod.mk.injEq] at h
    obtain ⟨_, hsource, _, _, rfl, rfl⟩ := h
    simp [keyValue, hsource, map_eq_bind]
  | _ => cases h

/-- A column is not a value, so that only one of the two orders of an equality can be read. -/
theorem keyValue_eq_none {name : String} (h : columnName e = some name)
    (ctx : ExecutionContext) : keyValue ctx e = none := by
  cases e <;> first | rfl | cases h

theorem extractColEqVal_eq {pkColumn : String} {col val : Expression}
    (h : extractColEqVal ctx pkColumn col val = some (value, source))
    (hlit : ¬(value = .noMatch ∧ source.isLiteral)) (ctx' : ExecutionContext) :
    extractColEqVal ctx' pkColumn col val = (source.extractPk ctx').map (·, source) ∧
      extractColEqVal ctx' pkColumn val col = none := by
  simp only [extractColEqVal, bind_eq_bind, bind_eq_some_iff] at h ⊢
  obtain ⟨name, hname, found, hfound, h⟩ := h
  split_ifs at h with heq
  cases h
  rw [hname, keyValue_eq_none hname, keyValue_eq hfound hlit ctx', bind_some]
  refine ⟨?_, by simp⟩
  cases source.extractPk ctx' <;> simp [heq]

theorem extractPkEqualityValue_eq {pkColumn : String}
    (h : extractPkEqualityValue ctx pkColumn e = some (value, source))
    (hlit : ¬(value = .noMatch ∧ source.isLiteral)) (ctx' : ExecutionContext) :
    extractPkEqualityValue ctx' pkColumn e = (source.extractPk ctx').map (·, source) := by
  cases e with
  | binary operator left right =>
    simp only [extractPkEqualityValue] at h ⊢
    split_ifs at h ⊢
    obtain h | ⟨-, h⟩ := or_eq_some_iff.mp h
    · rw [(extractColEqVal_eq h hlit ctx').1, (extractColEqVal_eq h hlit ctx').2, or_none]
    · rw [(extractColEqVal_eq h hlit ctx').1, (extractColEqVal_eq h hlit ctx').2, none_or]
  | _ => cases h

variable {engine : Engine} {ctx : ExecutionContext} {plan : CompiledPk α}
  {value : IntegerPkAdmission}

theorem isLiteral_of_noMatch (h : source.extractPk ctx = some .noMatch) :
    source.isLiteral = false := by
  cases source with
  | literal n => cases h
  | parameter i => rfl
  | namedParameter name => rfl

/-- **At the engine it was compiled for, a plan gives to every execution what compiling the
statement for that execution gives.** -/
theorem compile_fresh (h : stmt.compile engine ctx = .ok (plan, value)) (ctx' : ExecutionContext)
    {v : IntegerPkAdmission} (hv : plan.pkValueSource.extractPk ctx' = some v) :
    stmt.fresh engine ctx' = .result (stmt.execute plan v ctx') := by
  obtain ⟨⟨filter, schema, pkColumn⟩, htarget, h⟩ := ok_of_bind h
  obtain ⟨⟨value, source⟩, hkey, h⟩ := ok_of_bind h
  obtain ⟨updates, hupdates, h⟩ := ok_of_bind h
  split_ifs at h with hlit
  cases h
  have hkey : extractPkEqualityValue ctx pkColumn filter = some (value, source) := by
    cases hk : extractPkEqualityValue ctx pkColumn filter <;> simp_all [orStop]
  have hv : source.extractPk ctx' = some v := hv
  have hnot : ¬(v = .noMatch ∧ source.isLiteral) := by
    rintro ⟨rfl, hl⟩
    simp [isLiteral_of_noMatch hv] at hl
  have hok : stmt.compile engine ctx' =
      .ok (⟨stmt.tableName, schema, pkColumn, source, updates⟩, v) := by
    simp [compile, htarget, extractPkEqualityValue_eq hkey hlit ctx', hv, orStop, ok_bind, hupdates,
      hnot, pure, Except.pure]
  simp [fresh, hok]

/-! ## What an event keeps -/

variable {s : State α} {q : ℕ} {epoch : ℕ}

/-- A step of a schema change. -/
def Event.isDdl : Event → Bool
  | .publishSchemas _ _ | .nextEpoch => true
  | _ => false

/-- There is no plan, neither in the slot nor with the writer nor with a session. -/
structure State.Idle (s : State α) : Prop where
  slot : ∀ plan epoch, s.slot ≠ .compiled plan epoch
  writer : s.writer = none
  sessions : ∀ q ctx plan epoch value, s.sessions q ≠ some (.calls ctx plan epoch value)

/-- `P` holds of a plan at an epoch, for the execution that compiled it and for every other. -/
def Admits (P : ExecutionContext → CompiledPk α → ℕ → IntegerPkAdmission → Prop) (epoch : ℕ)
    (ctx : ExecutionContext) (found : Except Stop (CompiledPk α × IntegerPkAdmission)) : Prop :=
  ∀ plan value, found = .ok (plan, value) → P ctx plan epoch value ∧
    ∀ ctx' v, plan.pkValueSource.extractPk ctx' = some v → P ctx' plan epoch v

/-- `P` holds of every call that a session may make, and while a plan is in the slot nobody
writes. -/
structure Plans (P : ExecutionContext → CompiledPk α → ℕ → IntegerPkAdmission → Prop)
    (s : State α) : Prop where
  slot : ∀ plan epoch, s.slot = .compiled plan epoch → ∀ ctx value,
    plan.pkValueSource.extractPk ctx = some value → P ctx plan epoch value
  writer : ∀ w, s.writer = some w → (∀ plan epoch, s.slot ≠ .compiled plan epoch) ∧
    Admits P s.engine.schemaEpoch w.ctx w.found
  sessions : ∀ q ctx plan epoch value, s.sessions q = some (.calls ctx plan epoch value) →
    P ctx plan epoch value

variable {P : ExecutionContext → CompiledPk α → ℕ → IntegerPkAdmission → Prop}

theorem State.Idle.plans (h : s.Idle) : Plans P s :=
  ⟨fun plan epoch hs => absurd hs (h.slot plan epoch), fun w hw => by simp [h.writer] at hw,
    fun q ctx plan epoch value hq => absurd hq (h.sessions q ctx plan epoch value)⟩

/-- A session goes on to another phase. -/
theorem Plans.enter (h : Plans P s) {phase : Option (Phase α)} (hphase : ∀ ctx plan epoch value,
      phase = some (.calls ctx plan epoch value) → P ctx plan epoch value) :
    Plans P (s.enter q phase) := by
  refine ⟨h.slot, h.writer, fun p ctx plan epoch value hp => ?_⟩
  by_cases hpq : p = q
  · subst hpq
    exact hphase ctx plan epoch value (by simpa [State.enter] using hp)
  · exact h.sessions p ctx plan epoch value (by simpa [State.enter, hpq] using hp)

theorem Plans.use (h : Plans P s) (hslot : s.slot = .compiled plan epoch)
    (ctx : ExecutionContext) : Plans P (s.use q ctx plan epoch : State α × Outcome β).1 := by
  unfold State.use
  cases hv : plan.pkValueSource.extractPk ctx with
  | none => exact h.enter nofun
  | some value =>
    refine h.enter fun _ _ _ _ heq => ?_
    cases heq
    exact h.slot plan epoch hslot ctx value hv

theorem use_same (ctx : ExecutionContext) :
    (s.use q ctx plan epoch : State α × Outcome β).1.engine = s.engine ∧
      (s.use q ctx plan epoch : State α × Outcome β).1.slot = s.slot := by
  unfold State.use
  cases plan.pkValueSource.extractPk ctx <;> exact ⟨rfl, rfl⟩

theorem step_engine {e : Event} (he : e.isDdl = false) :
    (stmt.step s e).1.engine = s.engine := by
  unfold Statement.step
  cases e with
  | publishSchemas | nextEpoch => cases he
  | _ =>
    dsimp only
    repeat' split
    all_goals first | rfl | exact (use_same _).1

/-- **A plan stays in the slot.** -/
theorem Plans.step_slot (h : Plans P s) {e : Event} (hslot : s.slot = .compiled plan epoch) :
    (stmt.step s e).1.slot = .compiled plan epoch := by
  have hwriter : s.writer = none := by
    cases hw : s.writer with
    | none => rfl
    | some w => exact absurd hslot ((h.writer w hw).1 plan epoch)
  cases e with
  | tryFast q ctx =>
    simp only [Statement.step, hwriter, hslot]
    split_ifs
    · exact hslot
    · exact hslot
    · exact (use_same ctx).2.trans hslot
    · exact hslot
  | tryFastWithParams q ctx =>
    simp only [Statement.step, hwriter, hslot]
    split_ifs
    · exact hslot
    · exact hslot
    · exact (use_same _).2.trans hslot
  | compile q =>
    simp only [Statement.step, hwriter, hslot]
    split
    · exact (use_same _).2.trans hslot
    · exact hslot
  | store q =>
    simp only [Statement.step, hwriter]
    exact hslot
  | call q =>
    simp only [Statement.step]
    split <;> exact hslot
  | publishSchemas | nextEpoch => exact hslot

/-- **What holds of the plans there are goes on holding**, if it holds of what is compiled while
there is none in the slot. -/
theorem Plans.step (h : Plans P s) {e : Event} (he : e.isDdl = false)
    (hnew : (∀ plan epoch, s.slot ≠ .compiled plan epoch) → ∀ ctx,
      Admits P s.engine.schemaEpoch ctx (stmt.compile s.engine ctx)) :
    Plans P (stmt.step s e).1 := by
  have hwaits (q : ℕ) (ctx : ExecutionContext) : Plans P (s.enter q (some (.waits ctx))) :=
    h.enter nofun
  have hdone (q : ℕ) : Plans P (s.enter q none) := h.enter nofun
  unfold Statement.step
  cases e with
  | tryFast q ctx =>
    dsimp only
    split_ifs
    · exact h
    · exact h
    · split
      · split_ifs
        · exact h
        · exact hwaits q ctx
      · next hslot =>
        split_ifs
        · exact h.use hslot ctx
        · exact hwaits q ctx
      · exact hwaits q ctx
      · exact h
  | tryFastWithParams q ctx =>
    dsimp only
    split_ifs
    · exact h
    · split
      · next hslot =>
        split_ifs
        · exact h
        · exact h.use hslot ctx.borrowed
      · exact h
  | compile q =>
    have hcompile (ctx : ExecutionContext) (hslot : ∀ plan epoch, s.slot ≠ .compiled plan epoch) :
        Plans P { s.enter q none with writer := some ⟨q, ctx, stmt.compile s.engine ctx⟩ } := by
      refine ⟨h.slot, fun w hw => ?_, (hdone q).sessions⟩
      cases hw
      exact ⟨hslot, hnew hslot ctx⟩
    dsimp only
    split
    · next ctx _ _ =>
      split
      · next hslot =>
        split_ifs
        · exact hdone q
        · exact hcompile ctx (by simp [hslot])
      · next hslot => exact h.use hslot ctx
      · next hslot => exact hcompile ctx (by simp [hslot])
      · exact hdone q
    · exact h
  | store q =>
    dsimp only
    split
    · next w hw =>
      split_ifs
      · split
        · exact ⟨h.slot, nofun, h.sessions⟩
        · exact ⟨nofun, nofun, h.sessions⟩
        · exact ⟨h.slot, nofun, h.sessions⟩
        · exact ⟨h.slot, nofun, h.sessions⟩
        · next plan value hok =>
          obtain ⟨hself, hall⟩ := (h.writer w hw).2 plan value hok
          refine ⟨fun _ _ heq => ?_, nofun, (h.enter fun _ _ _ _ heq => ?_).sessions⟩
          · cases heq
            exact hall
          · cases heq
            exact hself
      · exact h
    · exact h
  | call q =>
    dsimp only
    split
    · exact hdone q
    · exact h
  | publishSchemas | nextEpoch => cases he

/-! ## What a history keeps -/

variable {events : List Event} {k : ℕ}

variable (stmt) in
/-- No step of a schema change up to moment `k` has found a plan. -/
def Undisturbed (engine : Engine) (events : List Event) (k : ℕ) : Prop :=
  ∀ i e, i < k → events[i]? = some e → e.isDdl = true → (stmt.after engine events i).Idle

variable (stmt) in
/-- Up to moment `k` the epoch has moved on while a plan was in the slot. -/
def LeftBehind (engine : Engine) (events : List Event) (k : ℕ) : Prop :=
  ∃ i plan epoch, i < k ∧ events[i]? = some .nextEpoch ∧
    (stmt.after engine events i).slot = .compiled plan epoch

variable (stmt) in
/-- The plan is of the current epoch and does what compiling the statement would do. -/
def IsCurrent (engine : Engine) (ctx : ExecutionContext) (plan : CompiledPk α) (epoch : ℕ)
    (value : IntegerPkAdmission) : Prop :=
  epoch = engine.schemaEpoch ∧ stmt.fresh engine ctx = .result (stmt.execute plan value ctx)

theorem admits_compile (engine : Engine) (ctx : ExecutionContext) :
    Admits (stmt.IsCurrent engine) engine.schemaEpoch ctx (stmt.compile engine ctx) :=
  fun plan value h => ⟨⟨rfl, by simp [fresh, h]⟩, fun ctx' _ hv => ⟨rfl, compile_fresh h ctx' hv⟩⟩

theorem Undisturbed.plans (h : stmt.Undisturbed engine events k) :
    Plans (stmt.IsCurrent (stmt.after engine events k).engine) (stmt.after engine events k) := by
  refine Run.after_while (P := fun s : State α => Plans (stmt.IsCurrent s.engine) s)
    (Q := fun i => i < k) (Nat.zero_le k) (State.Idle.plans ⟨nofun, rfl, nofun⟩)
    (fun _ _ hi => hi) fun i e _ he hi hs => ?_
  cases hddl : e.isDdl with
  | false =>
    rw [step_engine hddl]
    exact hs.step hddl fun _ => admits_compile _
  | true =>
    obtain ⟨hslot, hwriter, hsessions⟩ := h i e hi he hddl
    cases e with
    | publishSchemas | nextEpoch => exact State.Idle.plans ⟨hslot, hwriter, hsessions⟩
    | _ => cases hddl

/-- A step of a schema change leaves the plans as they are. -/
theorem Plans.ofDdl {P' : ExecutionContext → CompiledPk α → ℕ → IntegerPkAdmission → Prop}
    (h : Plans P s) (engine' : Engine)
    (himp : ∀ ctx plan epoch value, P ctx plan epoch value → P' ctx plan epoch value)
    (hwriter : ∀ w, s.writer = some w → Admits P' engine'.schemaEpoch w.ctx w.found) :
    Plans P' { s with engine := engine' } :=
  ⟨fun plan epoch hp ctx value hv => himp _ _ _ _ (h.slot plan epoch hp ctx value hv),
    fun w hw => ⟨(h.writer w hw).1, hwriter w hw⟩,
    fun q ctx plan epoch value hq => himp _ _ _ _ (h.sessions q ctx plan epoch value hq)⟩

/-- Epochs that were read are not above the current one. -/
theorem epochs_le (stmt : Statement α β) (engine : Engine) (events : List Event) (k : ℕ) :
    Plans (fun _ _ epoch _ => epoch ≤ (stmt.after engine events k).engine.schemaEpoch)
      (stmt.after engine events k) := by
  refine Run.after_invariant (P := fun s : State α =>
    Plans (fun _ _ epoch _ => epoch ≤ s.engine.schemaEpoch) s)
    (State.Idle.plans ⟨by simp, rfl, by simp⟩) (fun s e hs => ?_) k
  cases hddl : e.isDdl with
  | false =>
    rw [step_engine hddl]
    exact hs.step hddl fun _ _ _ _ _ => ⟨le_rfl, fun _ _ _ => le_rfl⟩
  | true =>
    cases e with
    | publishSchemas => exact ⟨hs.slot, hs.writer, hs.sessions⟩
    | nextEpoch =>
      exact hs.ofDdl _ (fun _ _ _ _ hle => hle.trans (Nat.le_succ _))
        fun _ _ _ _ _ => ⟨le_rfl, fun _ _ _ => le_rfl⟩
    | _ => cases hddl

/-- **Once the epoch has left a plan behind, every call is one of an older epoch.** -/
theorem LeftBehind.plans (h : stmt.LeftBehind engine events k) :
    Plans (fun _ _ epoch _ => epoch < (stmt.after engine events k).engine.schemaEpoch)
      (stmt.after engine events k) := by
  obtain ⟨i, plan, epoch, hik, hi, hslot⟩ := h
  have hwriter {s : State α} {P : ExecutionContext → CompiledPk α → ℕ → IntegerPkAdmission → Prop}
      (hs : Plans P s) (hslot : s.slot = .compiled plan epoch) (w : Writer α) : s.writer ≠ some w :=
    fun hw => (hs.writer w hw).1 plan epoch hslot
  have hle := epochs_le stmt engine events i
  refine (Run.after_while (P := fun s : State α => s.slot = .compiled plan epoch ∧
    Plans (fun _ _ epoch _ => epoch < s.engine.schemaEpoch) s) (Q := fun _ => True) hik ?_
    (fun _ _ _ => trivial) fun j e _ _ _ ⟨hslot, hs⟩ => ⟨hs.step_slot hslot, ?_⟩).2
  · rw [Run.after_succ hi]
    exact ⟨hslot, hle.ofDdl _ (fun _ _ _ _ => Nat.lt_succ_of_le)
      fun w hw => absurd hw (hwriter hle hslot w)⟩
  · cases hddl : e.isDdl with
    | false =>
      rw [step_engine hddl]
      exact hs.step hddl fun hnone => absurd hslot (hnone plan epoch)
    | true =>
      cases e with
      | publishSchemas => exact ⟨hs.slot, hs.writer, hs.sessions⟩
      | nextEpoch =>
        exact hs.ofDdl _ (fun _ _ _ _ hlt => hlt.trans (Nat.lt_succ_self _))
          fun w hw => absurd hw (hwriter hs hslot w)
      | _ => cases hddl

variable (stmt) in
/-- Every call of a history that no step of a schema change disturbs is of the current epoch and
makes the call that compiling the statement at that moment makes; and every call after the epoch has
left a plan behind is of an older epoch. -/
def RunsCurrent (engine : Engine) (events : List Event) : Prop :=
  ∀ k q ctx plan epoch value, events[k]? = some (.call q) →
    (stmt.after engine events k).sessions q = some (.calls ctx plan epoch value) →
    (stmt.Undisturbed engine events k → epoch = (stmt.after engine events k).engine.schemaEpoch ∧
      stmt.fresh (stmt.after engine events k).engine ctx =
        (stmt.step (stmt.after engine events k) (.call q)).2) ∧
    (stmt.LeftBehind engine events k → epoch < (stmt.after engine events k).engine.schemaEpoch)

theorem runsCurrent (stmt : Statement α β) (engine : Engine) (events : List Event) :
    stmt.RunsCurrent engine events := by
  intro k q ctx plan epoch value _ hq
  refine ⟨fun h => ?_, fun h => h.plans.sessions q ctx plan epoch value hq⟩
  obtain ⟨hepoch, hfresh⟩ := h.plans.sessions q ctx plan epoch value hq
  exact ⟨hepoch, by simp only [Statement.step, hq, hfresh]⟩

end Statement

/-- **A prepared UPDATE or DELETE runs what the current schema says as long as no step of a schema
change finds a plan of it**, in the slot, with the writer or with a session about to call. From the
moment the epoch moves on with a plan in the slot it runs at an older epoch, whatever comes. -/
theorem prepared_runs_current (lower : String → String) (update : UpdateStatement)
    (delete : DeleteStatement) (engine : Engine) (events : List Statement.Event) :
    (update.statement lower).RunsCurrent engine events ∧
      delete.statement.RunsCurrent engine events :=
  ⟨Statement.runsCurrent _ engine events, Statement.runsCurrent _ engine events⟩

/-- `UPDATE t SET b = 5 WHERE id = 1` is executed, `DROP COLUMN a` is committed, and it is executed
again: the plan of the old schema writes to the place where `b` was. -/
theorem dropped_column_unnoticed :
    let column (name : String) : SchemaColumn := ⟨name, name, .integer, false⟩
    let before : Schema := ⟨[column "id", column "a", column "b"], [0], false⟩
    let later : Schema := ⟨[column "id", column "b"], [0], false⟩
    let stmt := UpdateStatement.statement id ⟨"t", [("b", .integerLiteral ⟨5, by decide⟩)],
      some (.binary "=" (.identifier "id") (.integerLiteral ⟨1, by decide⟩)), false⟩
    let ctx : ExecutionContext := ⟨false, [], fun _ => none, fun v _ => .ok v⟩
    let engine : Engine := ⟨0, fun _ => some before, fun _ => false⟩
    let events := [.tryFast 1 ctx, .compile 1, .store 1, .call 1,
      .publishSchemas (fun _ => some later) (fun _ => false), .nextEpoch,
      .tryFast 2 ctx, .compile 2, .call 2]
    (stmt.after engine events 8).engine.schemaEpoch = 1 ∧
      (∃ plan, (stmt.after engine events 8).sessions 2 = some (.calls ctx plan 0 (.exact 1))) ∧
      (stmt.step (stmt.after engine events 8) (.call 2)).2 =
        .result (.ok (some ⟨"t", "id", before, 1, [(2, .integer ⟨5, by decide⟩)]⟩)) ∧
      stmt.fresh (stmt.after engine events 8).engine ctx =
        .result (.ok (some ⟨"t", "id", later, 1, [(1, .integer ⟨5, by decide⟩)]⟩)) := by
  exact ⟨rfl, ⟨_, rfl⟩, rfl, rfl⟩

end FastPath
end RadixDb

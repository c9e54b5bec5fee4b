import LedgerFlow.Migrations.Schema
import Mathlib.Data.List.TakeDrop
import Mathlib.Logic.Relation

/-! The commands `alembic upgrade` and `alembic downgrade`, one after the other, in any order: what they keep
of a database, and what they cannot do twice. -/

namespace LedgerFlow.Migrations

def Rule.columns : Rule → List String
  | .primaryKey columns | .unique columns => columns
  | .foreignKey column _ _ | .check column _ => [column]

def Rule.target : Rule → Option (String × String)
  | .foreignKey _ table target => some (table, target)
  | _ => none

namespace Table

/-- The constraints and the indexes of the column go with it. -/
def dropColumn (column : String) (table : Table) : Option Table :=
  if table.columns.any (·.name = column) then
    some { table with
      columns := table.columns.filter (·.name ≠ column)
      constraints := table.constraints.filter (column ∉ ·.rule.columns)
      indexes := table.indexes.filter (column ∉ ·.columns) }
  else none

def dropIndex (name : String) (table : Table) : Option Table :=
  if table.indexes.any (·.name = name) then
    some { table with indexes := table.indexes.filter (·.name ≠ name) }
  else none

end Table

/-- The statements of a downgrade. None of them is about an enumerated type. -/
inductive DownOp where
  | createUniqueConstraint (name : Option String) (table : String) (columns : List String)
  | dropTable (table : String)
  | dropColumn (table column : String)
  | dropIndex (name table : String)
  | dropConstraint (name : Option String) (table : String)
  deriving DecidableEq

def DownOp.apply (tables : List Table) : DownOp → Option (List Table)
  | .createUniqueConstraint name table columns =>
    alterTable table (·.addConstraint (.declared table name (.unique columns))) tables
  | .dropTable name =>
    -- without CASCADE a table stays that another one refers to
    if tables.any (·.name = name) ∧ ∀ table ∈ tables, table.name ≠ name →
        ∀ constraint ∈ table.constraints, constraint.rule.target.map Prod.fst ≠ some name then
      some (tables.filter (·.name ≠ name))
    else none
  | .dropColumn name column =>
    if ∃ table ∈ tables, ∃ constraint ∈ table.constraints,
      constraint.rule.target = some (name, column) then none
    else alterTable name (·.dropColumn column) tables
  | .dropIndex name table => alterTable table (·.dropIndex name) tables
  -- SQLAlchemy cannot compile the statement without a name
  | .dropConstraint none _ => none
  | .dropConstraint (some name) table => alterTable table (·.dropConstraint name) tables

structure Revision extends Migration where
  downgrade : List DownOp

structure Database where
  schema : Schema := {}
  version : ℕ := 0

def Database.up (history : List Revision) (database : Database) : Option Database := do
  let next ← history[database.version]?
  let schema ← execute next.upgrade database.schema
  return ⟨schema, database.version + 1⟩

def Database.down (history : List Revision) (database : Database) : Option Database :=
  match database.version with
  | 0 => none
  | version + 1 => do
    let last ← history[version]?
    let tables ← last.downgrade.foldlM DownOp.apply database.schema.tables
    return ⟨{ database.schema with tables := tables }, version⟩

/-- `alembic upgrade +steps` and `alembic downgrade -steps`. -/
inductive Command where
  | upgrade (steps : ℕ)
  | downgrade (steps : ℕ)

def Command.run (history : List Revision) (database : Database) : Command → Option Database
  | .upgrade steps => (· >>= Database.up history)^[steps] (some database)
  | .downgrade steps => (· >>= Database.down history)^[steps] (some database)

/-- `context.begin_transaction()`: where one of the revisions fails, the database stays as it was. -/
def Command.after (history : List Revision) (database : Database) (command : Command) : Database :=
  (command.run history database).getD database

def Reaches (history : List Revision) : Database → Database → Prop :=
  Relation.ReflTransGen fun d d' => ∃ command : Command, d' = command.after history d

def tablesAt (history : List Revision) (version : ℕ) : List Table :=
  ((execute ((history.take version).flatMap (·.upgrade)) {}).getD {}).tables

def Schema.types (schema : Schema) : List String := schema.enums.map Prod.fst

def Revision.Creates (name : String) (revision : Revision) : Prop := ∃ values,
    .createEnum name values ∈ revision.upgrade

variable {history : List Revision} {d d' d'' : Database} {schema schema' other other' : Schema}
  {op : Op} {ops : List Op} {revision : Revision} {name : String} {n : ℕ}

theorem Database.up_cases (moved : d.up history = some d') :
    ∃ next schema, history[d.version]? = some next ∧ execute next.upgrade d.schema = some schema ∧
    d' = ⟨schema, d.version + 1⟩ := by
  obtain ⟨next, found, moved⟩ := Option.bind_eq_some_iff.1 moved
  obtain ⟨schema, executed, same⟩ := Option.bind_eq_some_iff.1 moved
  cases same
  exact ⟨next, schema, found, executed, rfl⟩

theorem Database.down_cases (moved : d.down history = some d') :
    ∃ last tables, history[d'.version]? = some last ∧
    last.downgrade.foldlM DownOp.apply d.schema.tables = some tables ∧
      d.version = d'.version + 1 ∧ d'.schema = { d.schema with tables := tables } := by
  obtain ⟨schema, version⟩ := d
  cases version with
  | zero => cases moved
  | succ version =>
    obtain ⟨last, found, moved⟩ := Option.bind_eq_some_iff.1 moved
    obtain ⟨tables, dropped, same⟩ := Option.bind_eq_some_iff.1 moved
    cases same
    exact ⟨last, tables, found, dropped, rfl, rfl⟩

theorem keeps_of_iterate {I : Database → Prop} {move : Database → Option Database}
    (keeps : ∀ d d', I d → move d = some d' → I d') (holds : I d)
    (moved : (· >>= move)^[n] (some d) = some d') : I d' := by
  induction n generalizing d' with
  | zero =>
    cases moved
    exact holds
  | succ n ih =>
    rw [Function.iterate_succ_apply'] at moved
    obtain ⟨middle, earlier, last⟩ := Option.bind_eq_some_iff.1 moved
    exact keeps middle d' (ih earlier) last

/-- What one revision up and one revision down keep, all commands keep. -/
theorem Reaches.keeps {I : Database → Prop} (ups : ∀ d d', I d → d.up history = some d' → I d')
    (downs : ∀ d d', I d → d.down history = some d' → I d') (reaches : Reaches history d d')
    (holds : I d) : I d' := by
  induction reaches with
  | refl => exact holds
  | @tail d' d'' _ command ih =>
    obtain ⟨command, rfl⟩ := command
    cases ran : command.run history d' with
    | none => rwa [Command.after, ran]
    | some reached =>
      rw [Command.after, ran]
      cases command with
      | upgrade n => exact keeps_of_iterate ups ih ran
      | downgrade n => exact keeps_of_iterate downs ih ran

/-! A type stays, and cannot be created again. -/

theorem Schema.types_of_alter {change : Table → Option Table} (altered : schema.alter name change = some schema') :
    schema'.types = schema.types := by
  obtain ⟨tables, _, rfl⟩ := Option.map_eq_some_iff.1 altered
  rfl

theorem Op.types_of_apply (applied : op.apply schema = some schema') : schema.types ⊆ schema'.types := by
  cases op with
  | createEnum type values =>
    simp only [Op.apply] at applied
    split_ifs at applied
    cases applied
    rw [Schema.types, Schema.types, List.map_append]
    exact List.subset_append_left _ _
  | addEnumValue type value =>
    simp only [Op.apply] at applied
    split_ifs at applied
    cases applied
    intro name member
    obtain ⟨enum, listed, rfl⟩ := List.mem_map.1 member
    refine List.mem_map.2 ⟨_, List.mem_map.2 ⟨enum, listed, rfl⟩, ?_⟩
    split_ifs <;> rfl
  | createTable table columns constraints =>
    simp only [Op.apply] at applied
    split_ifs at applied
    cases applied
    exact List.Subset.refl _
  | addColumn | createIndex | createUniqueConstraint | dropConstraint =>
    rw [Schema.types_of_alter applied]
    exact List.Subset.refl _

theorem types_of_execute (executed : execute ops schema = some schema') : schema.types ⊆ schema'.types := by
  induction ops generalizing schema with
  | nil =>
    cases executed
    exact List.Subset.refl _
  | cons op ops ih =>
    rw [execute, List.foldlM_cons] at executed
    obtain ⟨middle, applied, rest⟩ := Option.bind_eq_some_iff.1 executed
    exact List.Subset.trans (Op.types_of_apply applied) (ih rest)

theorem new_of_execute {values : List String} (executed : execute ops schema = some schema')
    (creates : .createEnum name values ∈ ops) : name ∉ schema.types ∧ name ∈ schema'.types := by
  induction ops generalizing schema with
  | nil => cases creates
  | cons op ops ih =>
    rw [execute, List.foldlM_cons] at executed
    obtain ⟨middle, applied, rest⟩ := Option.bind_eq_some_iff.1 executed
    rcases List.mem_cons.1 creates with rfl | later
    · simp only [Op.apply] at applied
      split_ifs at applied with there
      cases applied
      constructor
      · intro member
        obtain ⟨enum, listed, rfl⟩ := List.mem_map.1 member
        exact there (List.any_eq_true.2 ⟨enum, listed, decide_eq_true rfl⟩)
      · apply types_of_execute rest
        rw [Schema.types, List.map_append]
        exact List.mem_append_right _ List.mem_cons_self
    · obtain ⟨new, created⟩ := ih rest later
      exact ⟨fun member => new (Op.types_of_apply applied member), created⟩

theorem Reaches.types (reaches : Reaches history d d') : d.schema.types ⊆ d'.schema.types := by
  apply Reaches.keeps (I := fun d' => d.schema.types ⊆ d'.schema.types) _ _ reaches (List.Subset.refl _)
  · intro u v earlier moved
    obtain ⟨_, _, _, executed, rfl⟩ := Database.up_cases moved
    exact List.Subset.trans earlier (types_of_execute executed)
  · intro u v earlier moved
    obtain ⟨_, _, _, _, _, same⟩ := Database.down_cases moved
    rw [same]
    exact earlier

theorem Reaches.created (reaches : Reaches history {} d) (found : history[n]? = some revision)
    (creates : revision.Creates name) (applied : n < d.version) : name ∈ d.schema.types := by
  revert applied
  apply Reaches.keeps (I := fun d => n < d.version → name ∈ d.schema.types) _ _ reaches
  · intro absurd
    cases absurd
  · intro u v earlier moved applied
    obtain ⟨next, schema, found', executed, rfl⟩ := Database.up_cases moved
    rcases Nat.lt_succ_iff_lt_or_eq.1 applied with before | rfl
    · exact types_of_execute executed (earlier before)
    · cases found'.symm.trans found
      obtain ⟨values, member⟩ := creates
      exact (new_of_execute executed member).2
  · intro u v earlier moved applied
    obtain ⟨_, _, _, _, version, same⟩ := Database.down_cases moved
    rw [same]
    exact earlier (by omega)

/-- A revision whose type is already there is never applied. -/
theorem Reaches.stuck (reaches : Reaches history d d') (found : history[n]? = some revision)
    (creates : revision.Creates name)
    (there : name ∈ d.schema.types) (unapplied : d.version ≤ n) : d'.version ≤ n := by
  have both : name ∈ d'.schema.types ∧ d'.version ≤ n := by
    apply Reaches.keeps (I := fun d => name ∈ d.schema.types ∧ d.version ≤ n) _ _ reaches ⟨there, unapplied⟩
    · rintro u v ⟨there, unapplied⟩ moved
      obtain ⟨next, schema, found', executed, rfl⟩ := Database.up_cases moved
      refine ⟨types_of_execute executed there, ?_⟩
      by_contra applied
      obtain rfl : u.version = n := by
        change ¬u.version + 1 ≤ n at applied
        omega
      cases found'.symm.trans found
      obtain ⟨values, member⟩ := creates
      exact (new_of_execute executed member).1 there
    · rintro u v ⟨there, unapplied⟩ moved
      obtain ⟨_, _, _, _, version, same⟩ := Database.down_cases moved
      rw [same]
      exact ⟨there, by omega⟩
  exact both.2

theorem Reaches.lost (reaches : Reaches history {} d) (found : history[n]? = some revision)
    (creates : revision.Creates name)
    (applied : n < d.version) (later : Reaches history d d') (undone : d'.version ≤ n)
    (again : Reaches history d' d'') :
    d''.version ≤ n :=
  again.stuck found creates (later.types (reaches.created found creates applied)) undone

/-! A downgrade that cannot be compiled undoes nothing. -/

theorem foldlM_eq_none {α β : Type} {f : β → α → Option β} {refused : α}
    (refuses : ∀ state, f state refused = none) :
    ∀ {l : List α} (_ : refused ∈ l) (state : β), l.foldlM f state = none := by
  intro l member
  induction l with
  | nil => cases member
  | cons first rest ih =>
    intro state
    rw [List.foldlM_cons]
    rcases List.mem_cons.1 member with rfl | later
    · rw [refuses]
      rfl
    · cases f state first with
      | none => rfl
      | some next => exact ih later next

theorem Reaches.final (reaches : Reaches history d d') (found : history[n]? = some revision) {table : String}
    (nameless : .dropConstraint none table ∈ revision.downgrade) (applied : n < d.version) : n < d'.version := by
  apply Reaches.keeps (I := fun d => n < d.version) _ _ reaches applied
  · intro u v applied moved
    obtain ⟨_, _, _, _, rfl⟩ := Database.up_cases moved
    exact Nat.lt_succ_of_lt applied
  · intro u v applied moved
    obtain ⟨last, tables, found', dropped, version, _⟩ := Database.down_cases moved
    have other : v.version ≠ n := by
      rintro rfl
      cases found'.symm.trans found
      have refuses : ∀ tables, DownOp.apply tables (.dropConstraint none table) = none := fun _ => rfl
      rw [foldlM_eq_none refuses nameless] at dropped
      cases dropped
    omega

/-! The tables are always those of the revision. -/

theorem upgradeHead_of_lineage {versions : List Migration} {head : Migration} (single : heads versions = [head])
    (leads : lineage versions versions.length (some head.revision) = some (history.map (·.toMigration))) :
    upgradeHead versions = execute (history.flatMap (·.upgrade)) {} := by
  unfold upgradeHead
  rw [single]
  simp only [leads, Option.bind_eq_bind, Option.bind_some, List.flatMap_map]

theorem Op.tables_of_apply (same : schema.tables = other.tables) (applied : op.apply schema = some schema')
    (applied' : op.apply other = some other') : schema'.tables = other'.tables := by
  cases op with
  | createEnum type values | addEnumValue type value =>
    simp only [Op.apply] at applied applied'
    split_ifs at applied applied'
    cases applied
    cases applied'
    exact same
  | createTable table columns constraints =>
    simp only [Op.apply] at applied applied'
    split_ifs at applied applied'
    cases applied
    cases applied'
    exact congrArg (· ++ _) same
  | addColumn | createIndex | createUniqueConstraint | dropConstraint =>
    obtain ⟨tables, altered, rfl⟩ := Option.map_eq_some_iff.1 applied
    obtain ⟨tables', altered', rfl⟩ := Option.map_eq_some_iff.1 applied'
    rw [same] at altered
    exact Option.some.inj (altered.symm.trans altered')

theorem tables_of_execute (same : schema.tables = other.tables) (executed : execute ops schema = some schema')
    (executed' : execute ops other = some other') : schema'.tables = other'.tables := by
  induction ops generalizing schema other with
  | nil =>
    cases executed
    cases executed'
    exact same
  | cons op ops ih =>
    rw [execute, List.foldlM_cons] at executed executed'
    obtain ⟨middle, applied, rest⟩ := Option.bind_eq_some_iff.1 executed
    obtain ⟨middle', applied', rest'⟩ := Option.bind_eq_some_iff.1 executed'
    exact ih (Op.tables_of_apply same applied applied') rest rest'

/-- All revisions can be applied one after the other, and what a downgrade makes of the tables of its
revision, if it does anything, are the tables of the one before. -/
structure Reversible (history : List Revision) : Prop where
  upgrades : (execute (history.flatMap (·.upgrade)) {}).isSome
  downgrades : ∀ (version : ℕ) (below : version < history.length),
    history[version].downgrade.foldlM DownOp.apply (tablesAt history (version + 1)) ∈
      [none, some (tablesAt history version)]

theorem execute_append (ops later : List Op) (schema : Schema) :
    execute (ops ++ later) schema = execute ops schema >>= execute later :=
  List.foldlM_append ..

namespace Reversible

theorem execute_take (reversible : Reversible history) (version : ℕ) :
    ∃ schema, execute ((history.take version).flatMap (·.upgrade)) {} = some schema ∧
    schema.tables = tablesAt history version := by
  have whole := reversible.upgrades
  rw [← List.take_append_drop version history, List.flatMap_append, execute_append] at whole
  obtain ⟨last, executed⟩ := Option.isSome_iff_exists.1 whole
  obtain ⟨schema, first, _⟩ := Option.bind_eq_some_iff.1 executed
  exact ⟨schema, first, by rw [tablesAt, first]; rfl⟩

theorem tables (reversible : Reversible history) (reaches : Reaches history {} d) :
    d.version ≤ history.length ∧ d.schema.tables = tablesAt history d.version := by
  apply Reaches.keeps (I := fun d => d.version ≤ history.length ∧
    d.schema.tables = tablesAt history d.version) _ _ reaches ⟨Nat.zero_le _, rfl⟩
  · rintro u v ⟨_, same⟩ moved
    obtain ⟨next, schema, found, executed, rfl⟩ := Database.up_cases moved
    obtain ⟨below, _⟩ := List.getElem?_eq_some_iff.1 found
    refine ⟨below, ?_⟩
    obtain ⟨before, first, tables⟩ := reversible.execute_take u.version
    obtain ⟨after, second, tables'⟩ := reversible.execute_take (u.version + 1)
    rw [List.take_add_one, found, List.flatMap_append, execute_append, first] at second
    have second : execute next.upgrade before = some after := by simpa using second
    exact (tables_of_execute (same.trans tables.symm) executed second).trans tables'
  · rintro u v ⟨bound, same⟩ moved
    obtain ⟨last, tables, found, dropped, version, schema⟩ := Database.down_cases moved
    obtain ⟨below, rfl⟩ := List.getElem?_eq_some_iff.1 found
    refine ⟨by omega, ?_⟩
    have outcome := reversible.downgrades v.version below
    rw [← version, ← same, dropped] at outcome
    rcases List.mem_cons.1 outcome with absurd | undone
    · cases absurd
    · rw [schema]
      exact Option.some.inj (List.mem_singleton.1 undone)

end Reversible

end LedgerFlow.Migrations

import Mathlib.Data.List.Basic

/-! Database schemas and the migrations that build them: the statements of a migration, the chain of revisions, and
where the constraints of an upgraded database come from. -/

namespace LedgerFlow.Migrations

inductive ColumnType where
  | uuid
  | string (length : ℕ)
  | integer
  | numeric (precision scale : ℕ)
  | dateTime
  | json
  | enum (name : String)
  deriving DecidableEq, Repr

structure Column where
  name : String
  type : ColumnType
  nullable : Bool := false
  deriving DecidableEq, Repr

inductive Rule where
  | primaryKey (columns : List String)
  | unique (columns : List String)
  | foreignKey (column table target : String)
  | check (column sqltext : String)
  deriving DecidableEq, Repr

/-- The name PostgreSQL gives to a constraint that is declared without one. -/
def Rule.defaultName (table : String) : Rule → String
  | .primaryKey _ => table ++ "_pkey"
  | .unique columns => table ++ "_" ++ "_".intercalate columns ++ "_key"
  | .foreignKey column _ _ => table ++ "_" ++ column ++ "_fkey"
  | .check column _ => table ++ "_" ++ column ++ "_check"

structure Constraint where
  name : String
  rule : Rule
  deriving DecidableEq, Repr

structure Index where
  name : String
  columns : List String
  deriving DecidableEq, Repr

structure Table where
  name : String
  columns : List Column
  constraints : List Constraint
  indexes : List Index := []
  deriving DecidableEq, Repr

structure Schema where
  tables : List Table := []
  enums : List (String × List String) := []

def Constraint.declared (table : String) (name : Option String) (rule : Rule) : Constraint where
  name := name.getD (rule.defaultName table)
  rule := rule

inductive Op where
  | createEnum (name : String) (values : List String)
  | addEnumValue (name value : String)
  | createTable (table : String) (columns : List Column) (constraints : List (Option String × Rule))
  | addColumn (table : String) (column : Column)
  | createIndex (name table : String) (columns : List String)
  | createUniqueConstraint (name : Option String) (table : String) (columns : List String)
  | dropConstraint (name table : String)
  deriving DecidableEq

namespace Table

def addColumn (column : Column) (table : Table) : Option Table :=
  if table.columns.any (·.name = column.name) then none else some { table with columns := table.columns ++ [column] }

def addIndex (index : Index) (table : Table) : Option Table :=
  if table.indexes.any (·.name = index.name) then none else some { table with indexes := table.indexes ++ [index] }

/-- A name that is taken is refused, also where PostgreSQL would number a name of its own. -/
def addConstraint (constraint : Constraint) (table : Table) : Option Table :=
  if table.constraints.any (·.name = constraint.name) then none
  else some { table with constraints := table.constraints ++ [constraint] }

def dropConstraint (name : String) (table : Table) : Option Table :=
  if table.constraints.any (·.name = name) then
    some { table with constraints := table.constraints.filter (·.name ≠ name) }
  else none

end Table

def alterTable (name : String) (change : Table → Option Table) : List Table → Option (List Table)
  | [] => none
  | table :: rest =>
    if table.name = name then (change table).map (· :: rest) else (alterTable name change rest).map (table :: ·)

def Schema.alter (schema : Schema) (name : String) (change : Table → Option Table) : Option Schema :=
  (alterTable name change schema.tables).map fun tables => { schema with tables := tables }

def Op.apply (schema : Schema) : Op → Option Schema
  | .createEnum name values =>
    if schema.enums.any (·.1 = name) then none else some { schema with enums := schema.enums ++ [(name, values)] }
  | .addEnumValue name value =>
    if schema.enums.any (·.1 = name) then
      some { schema with enums := schema.enums.map fun enum =>
        if enum.1 = name ∧ value ∉ enum.2 then (enum.1, enum.2 ++ [value]) else enum }
    else none
  | .createTable table columns constraints =>
    if schema.tables.any (·.name = table) then none
    else some { schema with tables := schema.tables ++
      [⟨table, columns, constraints.map fun (name, rule) => .declared table name rule, []⟩] }
  | .addColumn table column => schema.alter table (·.addColumn column)
  | .createIndex name table columns => schema.alter table (·.addIndex ⟨name, columns⟩)
  | .createUniqueConstraint name table columns =>
    schema.alter table (·.addConstraint (.declared table name (.unique columns)))
  | .dropConstraint name table => schema.alter table (·.dropConstraint name)

def execute (ops : List Op) (schema : Schema) : Option Schema := ops.foldlM Op.apply schema

structure Migration where
  revision : String
  downRevision : Option String
  upgrade : List Op

def heads (versions : List Migration) : List Migration :=
  versions.filter fun migration => versions.all (·.downRevision ≠ some migration.revision)

def lineage (versions : List Migration) : ℕ → Option String → Option (List Migration)
  | _, none => some []
  | 0, some _ => none
  | fuel + 1, some revision => do
    let migration ← versions.find? (·.revision = revision)
    let earlier ← lineage versions fuel migration.downRevision
    return earlier ++ [migration]

def upgradeHead (versions : List Migration) : Option Schema :=
  match heads versions with
  | [head] => do
    let path ← lineage versions versions.length (some head.revision)
    execute (path.flatMap (·.upgrade)) {}
  | _ => none

def Schema.Has (schema : Schema) (table : String) (rule : Rule) : Prop :=
  ∃ t ∈ schema.tables, t.name = table ∧ ∃ c ∈ t.constraints, c.rule = rule

instance (schema : Schema) (table : String) (rule : Rule) : Decidable (schema.Has table rule) :=
  inferInstanceAs (Decidable (∃ t ∈ schema.tables, _))

def Op.Declares (table : String) (rule : Rule) : Op → Prop
  | .createTable name _ constraints => name = table ∧ rule ∈ constraints.map (·.2)
  | .createUniqueConstraint _ name columns => name = table ∧ rule = .unique columns
  | _ => False

def Rule.isCheck : Rule → Bool
  | .check _ _ => true
  | _ => false

def Op.Checks : Op → Prop
  | .createTable _ _ constraints => ∃ declared ∈ constraints, declared.2.isCheck
  | _ => False

instance : DecidablePred Op.Checks
  | .createTable _ _ constraints => inferInstanceAs (Decidable (∃ declared ∈ constraints, declared.2.isCheck))
  | .createEnum _ _ | .addEnumValue _ _ | .addColumn _ _ | .createIndex _ _ _ | .createUniqueConstraint _ _ _
  | .dropConstraint _ _ => inferInstanceAs (Decidable False)

theorem Op.checks_of_declares (op : Op) {table column sqltext : String}
    (declares : op.Declares table (.check column sqltext)) : op.Checks := by
  cases op with
  | createTable name columns constraints =>
    obtain ⟨declared, member, same⟩ := List.mem_map.1 declares.2
    exact ⟨declared, member, by rw [same]; rfl⟩
  | createUniqueConstraint => cases declares.2
  | createEnum | addEnumValue | addColumn | createIndex | dropConstraint => cases declares

variable {schema schema' : Schema} {tables tables' : List Table} {versions path : List Migration}
  {name table : String} {rule : Rule} {change : Table → Option Table} {t : Table} {op : Op} {ops : List Op}

theorem mem_of_alter (altered : alterTable name change tables = some tables') (member : t ∈ tables') :
    t ∈ tables ∨ ∃ u ∈ tables, u.name = name ∧ change u = some t := by
  induction tables generalizing tables' with
  | nil => cases altered
  | cons u rest ih =>
    rw [alterTable] at altered
    split_ifs at altered with same
    · obtain ⟨changed, changes, rfl⟩ := Option.map_eq_some_iff.1 altered
      rcases List.mem_cons.1 member with rfl | old
      · exact .inr ⟨u, List.mem_cons_self, same, changes⟩
      · exact .inl (List.mem_cons_of_mem _ old)
    · obtain ⟨rest', later, rfl⟩ := Option.map_eq_some_iff.1 altered
      rcases List.mem_cons.1 member with rfl | old
      · exact .inl List.mem_cons_self
      · rcases ih later old with kept | ⟨v, found, named, changes⟩
        · exact .inl (List.mem_cons_of_mem _ kept)
        · exact .inr ⟨v, List.mem_cons_of_mem _ found, named, changes⟩

theorem Schema.has_of_alter {K : Rule → Prop} (altered : schema.alter name change = some schema')
    (keeps : ∀ u t, change u = some t → t.name = u.name ∧
      ∀ c ∈ t.constraints, c ∈ u.constraints ∨ K c.rule)
    (has : schema'.Has table rule) : schema.Has table rule ∨ name = table ∧ K rule := by
  obtain ⟨tables', tables, rfl⟩ := Option.map_eq_some_iff.1 altered
  obtain ⟨t, member, named, c, listed, rfl⟩ := has
  rcases mem_of_alter tables member with old | ⟨u, found, called, changes⟩
  · exact .inl ⟨t, old, named, c, listed, rfl⟩
  · obtain ⟨kept, constraints⟩ := keeps u t changes
    rcases constraints c listed with before | added
    · exact .inl ⟨u, found, kept.symm.trans named, c, before, rfl⟩
    · exact .inr ⟨called.symm.trans (kept.symm.trans named), added⟩

theorem Op.has_of_apply (applied : op.apply schema = some schema') (has : schema'.Has table rule) :
    schema.Has table rule ∨ op.Declares table rule := by
  cases op with
  | createEnum name values | addEnumValue name value =>
    simp only [Op.apply] at applied
    split_ifs at applied
    cases applied
    exact .inl has
  | createTable name columns constraints =>
    simp only [Op.apply] at applied
    split_ifs at applied
    cases applied
    obtain ⟨t, member, named, c, listed, rfl⟩ := has
    rcases List.mem_append.1 member with old | new
    · exact .inl ⟨t, old, named, c, listed, rfl⟩
    · have same := List.mem_singleton.1 new
      subst same
      obtain ⟨declared, member, rfl⟩ := List.mem_map.1 listed
      exact .inr ⟨named, List.mem_map_of_mem member⟩
  | addColumn name column =>
    simp only [Op.apply] at applied
    refine (Schema.has_of_alter (K := fun _ => False) applied ?_ has).imp_right fun added => added.2.elim
    intro u t changed
    unfold Table.addColumn at changed
    split_ifs at changed
    cases changed
    exact ⟨rfl, fun c listed => .inl listed⟩
  | createIndex index name columns =>
    simp only [Op.apply] at applied
    refine (Schema.has_of_alter (K := fun _ => False) applied ?_ has).imp_right fun added => added.2.elim
    intro u t changed
    unfold Table.addIndex at changed
    split_ifs at changed
    cases changed
    exact ⟨rfl, fun c listed => .inl listed⟩
  | createUniqueConstraint name table columns =>
    simp only [Op.apply] at applied
    apply Schema.has_of_alter applied _ has
    intro u t changed
    unfold Table.addConstraint at changed
    split_ifs at changed
    cases changed
    refine ⟨rfl, fun c listed => ?_⟩
    rcases List.mem_append.1 listed with old | new
    · exact .inl old
    · rw [List.mem_singleton.1 new]
      exact .inr rfl
  | dropConstraint constraint name =>
    simp only [Op.apply] at applied
    refine (Schema.has_of_alter (K := fun _ => False) applied ?_ has).imp_right fun added => added.2.elim
    intro u t changed
    unfold Table.dropConstraint at changed
    split_ifs at changed
    cases changed
    exact ⟨rfl, fun c listed => .inl (List.mem_filter.1 listed).1⟩

theorem has_of_execute (executed : execute ops schema = some schema') (has : schema'.Has table rule) :
    schema.Has table rule ∨ ∃ op ∈ ops, op.Declares table rule := by
  induction ops generalizing schema with
  | nil =>
    cases executed
    exact .inl has
  | cons op ops ih =>
    rw [execute, List.foldlM_cons] at executed
    obtain ⟨middle, applied, rest⟩ := Option.bind_eq_some_iff.1 executed
    rcases ih rest with before | ⟨later, member, declares⟩
    · exact (Op.has_of_apply applied before).imp_right fun declares => ⟨op, List.mem_cons_self, declares⟩
    · exact .inr ⟨later, List.mem_cons_of_mem _ member, declares⟩

theorem mem_of_lineage {fuel : ℕ} {revision : Option String} (leads : lineage versions fuel revision = some path)
    {migration : Migration} (member : migration ∈ path) : migration ∈ versions := by
  induction fuel generalizing revision path with
  | zero =>
    cases revision <;> cases leads
    cases member
  | succ fuel ih =>
    cases revision with
    | none =>
      cases leads
      cases member
    | some revision =>
      rw [lineage] at leads
      obtain ⟨last, found, leads⟩ := Option.bind_eq_some_iff.1 leads
      obtain ⟨earlier, before, same⟩ := Option.bind_eq_some_iff.1 leads
      cases same
      rcases List.mem_append.1 member with old | new
      · exact ih before old
      · rw [List.mem_singleton.1 new]
        exact List.mem_of_find?_eq_some found

/-- An upgraded database has no constraint that no migration declares. -/
theorem declared_of_upgradeHead (upgraded : upgradeHead versions = some schema) (has : schema.Has table rule) :
    ∃ migration ∈ versions, ∃ op ∈ migration.upgrade, op.Declares table rule := by
  unfold upgradeHead at upgraded
  split at upgraded
  · obtain ⟨path, leads, executed⟩ := Option.bind_eq_some_iff.1 upgraded
    rcases has_of_execute executed has with ⟨t, member, _⟩ | ⟨op, member, declares⟩
    · cases member
    · obtain ⟨migration, listed, contains⟩ := List.mem_flatMap.1 member
      exact ⟨migration, mem_of_lineage leads listed, op, contains, declares⟩
  · cases upgraded

end LedgerFlow.Migrations

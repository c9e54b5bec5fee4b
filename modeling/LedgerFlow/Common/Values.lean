import LedgerFlow.Text.Decimal
import LedgerFlow.Text.Strings
import LedgerFlow.Text.Timestamp
import LedgerFlow.Text.Uuid

/-! Values the services exchange: JSON documents, what Python reads from them, and the exceptions it raises. -/

namespace LedgerFlow

inductive Json where
  | null
  | bool (value : Bool)
  | int (value : ℤ)
  | str (value : String)
  | obj (fields : List (String × Json))

inductive PyError where
  | valueError (message : String)
  | keyError (key : String)
  | typeError
  | attributeError
  | invalidOperation
  | overflow
  | multipleResultsFound
  | integrityError
  | dataError
  | redisError
  | kafkaError (message : String)
  /-- A lost connection, a failed statement, a cancellation or a crash. -/
  | failure
  deriving DecidableEq, Repr

namespace Json

mutual

def decEq : (a b : Json) → Decidable (a = b)
  | .null, .null => isTrue rfl
  | .bool a, .bool b => decidable_of_iff (a = b) (by simp)
  | .int a, .int b => decidable_of_iff (a = b) (by simp)
  | .str a, .str b => decidable_of_iff (a = b) (by simp)
  | .obj a, .obj b =>
    match decEqFields a b with
    | isTrue same => isTrue (congrArg obj same)
    | isFalse different => isFalse fun same => different (obj.inj same)
  | .null, .bool _ | .null, .int _ | .null, .str _ | .null, .obj _ | .bool _, .null | .bool _,
      .int _ | .bool _, .str _
  | .bool _, .obj _ | .int _, .null | .int _, .bool _ | .int _, .str _ | .int _, .obj _ | .str _,
      .null | .str _, .bool _
  | .str _, .int _ | .str _, .obj _ | .obj _, .null | .obj _, .bool _ | .obj _, .int _ | .obj _, .str _ =>
    isFalse nofun
termination_by structural a => a

def decEqFields : (a b : List (String × Json)) → Decidable (a = b)
  | [], [] => isTrue rfl
  | [], _ :: _ | _ :: _, [] => isFalse nofun
  | entry :: rest, entry' :: rest' =>
    match decEqEntry entry entry', decEqFields rest rest' with
    | isTrue same, isTrue rests => isTrue (by rw [same, rests])
    | isFalse different, _ => isFalse fun same => different (List.cons.inj same).1
    | _, isFalse different => isFalse fun same => different (List.cons.inj same).2
termination_by structural a => a

def decEqEntry : (a b : String × Json) → Decidable (a = b)
  | (key, a), (key', b) =>
    match a.decEq b with
    | isTrue same => decidable_of_iff (key = key') (by simp [same])
    | isFalse different => isFalse fun same => different (Prod.mk.inj same).2
termination_by structural a => a
end

instance instDecidableEq : DecidableEq Json := decEq
/-- `document[key]`. -/
def item (document : Json) (key : String) : Except PyError Json :=
  match document with
  | .obj fields =>
    match fields.lookup key with
    | some value => .ok value
    | none => .error (.keyError key)
  | _ => .error .typeError

@[simp] theorem item_head (key : String) (value : Json) (fields : List (String × Json)) :
    (obj ((key, value) :: fields)).item key = .ok value := by
  simp only [item, List.lookup_cons_self]

@[simp] theorem item_tail {key other : String} (different : key ≠ other) (value : Json)
    (fields : List (String × Json)) : (obj ((other, value) :: fields)).item key = (obj fields).item key := by
  simp only [item, List.lookup_cons, beq_false_of_ne different]

@[simp] theorem item_nil (key : String) : (obj []).item key = .error (.keyError key) := rfl

/-- `document == text`. -/
def Is (document : Json) (text : String) : Prop :=
  match document with
  | .str value => value = text
  | _ => False

instance (document : Json) (text : String) : Decidable (document.Is text) :=
  match document with
  | .str value => inferInstanceAs (Decidable (value = text))
  | .null | .bool _ | .int _ | .obj _ => .isFalse id

def uuid (document : Json) : Except PyError UUID :=
  match document with
  | .str text =>
    match UUID.ofStr text with
    | some value => .ok value
    | none => .error (.valueError "badly formed hexadecimal UUID string")
  | .null => .error .typeError
  | _ => .error .attributeError

theorem uuid_str (value : UUID) : (Json.str value.str).uuid = .ok value := by
  simp only [uuid, UUID.ofStr_str]

def decimal (document : Json) : Except PyError Decimal.Number :=
  match document with
  | .str text =>
    match Decimal.ofStr text with
    | some value => .ok value
    | none => .error .invalidOperation
  | .int value => .ok (.finite ⟨value < 0, value.natAbs, 0⟩)
  | .bool value => .ok (.finite ⟨false, value.toNat, 0⟩)
  | _ => .error .typeError

theorem decimal_str (value : Decimal) : (Json.str value.str).decimal = .ok (.finite value) := by
  simp only [decimal, Decimal.ofStr_str]

end Json
end LedgerFlow

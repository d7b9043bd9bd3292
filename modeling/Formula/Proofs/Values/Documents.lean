import Formula.Proofs.Numbers.Integral
import Formula.Value.Json

/-!
# The JSON document of a value

Whether the document of a value is built at once or the value is written part by part into a format,
the same comes out: a value written in a format is its document written in this format, and written
as JSON it is the document itself. The document has the shape of the value; integers below `2 ^ 53`
in magnitude are integers there, also zero with a sign, other finite numbers are numbers, and what
JSON has nothing for is null.
-/

namespace Formula

/-! ### Documents in a format -/

namespace Json

open Value (Format)

variable {α : Type}

mutual

/-- Writes a document in a format. -/
def write (f : Format α) : Json → α
  | .null => f.unit
  | .bool b => f.bool b
  | .integer i => f.integer i
  | .number x => f.number x
  | .string s => f.string s
  | .array items => f.sequence (writeItems f items)
  | .object members => f.mapping (writeMembers f members)

def writeItems (f : Format α) : List Json → List α
  | [] => []
  | item :: rest => write f item :: writeItems f rest

def writeMembers (f : Format α) : List (String × Json) → List (String × α)
  | [] => []
  | (name, item) :: rest => (name, write f item) :: writeMembers f rest

end

mutual

/-- A document written as JSON is the document. -/
theorem write_json : (j : Json) → j.write .json = j
  | .null | .bool _ | .integer _ | .number _ | .string _ => rfl
  | .array items => congrArg Json.array (writeItems_json items)
  | .object members => congrArg Json.object (writeMembers_json members)

theorem writeItems_json : (items : List Json) → writeItems .json items = items
  | [] => rfl
  | item :: rest => by rw [writeItems, write_json item, writeItems_json rest]

theorem writeMembers_json : (members : List (String × Json)) → writeMembers .json members = members
  | [] => rfl
  | (name, item) :: rest => by rw [writeMembers, write_json item, writeMembers_json rest]

end

mutual

/-- A document written as compact text is its compact text. -/
theorem write_jsonText : (j : Json) → j.write .jsonText = j.compact
  | .null | .bool _ | .integer _ | .number _ | .string _ => rfl
  | .array items => by
    rw [write, writeItems_jsonText items]
    rfl
  | .object members => by
    rw [write, compact, ← writeMembers_jsonText members]
    rfl

theorem writeItems_jsonText : (items : List Json) → writeItems .jsonText items = compactItems items
  | [] => rfl
  | item :: rest => by rw [writeItems, compactItems, write_jsonText item, writeItems_jsonText rest]

theorem writeMembers_jsonText : (members : List (String × Json)) →
    (writeMembers .jsonText members).map (fun (k, t) => quote k ++ ":" ++ t) =
      compactMembers members
  | [] => rfl
  | (name, item) :: rest => by
    rw [writeMembers, compactMembers, List.map_cons, write_jsonText item,
      writeMembers_jsonText rest]

end

end Json

namespace Value

variable {α : Type} {x : Float}

mutual

/-- A value is written in a format as its document is. -/
theorem write_toJson (f : Format α) : (v : Value) → v.write f = v.toJson.write f
  | .undefined | .null | .bool _ | .string _ | .function _ | .deferred _ => rfl
  | .number x => by
    rw [write, toJson]
    split
    · rfl
    · split <;> rfl
  | .array items => congrArg f.sequence (writeItems_toJson f items)
  | .object fields => congrArg f.mapping (writeFields_toJson f fields)

theorem writeItems_toJson (f : Format α) : (items : List Value) →
    writeItems f items = Json.writeItems f (itemsToJson items)
  | [] => rfl
  | v :: rest => by
    rw [writeItems, itemsToJson, Json.writeItems, write_toJson f v, writeItems_toJson f rest]

theorem writeFields_toJson (f : Format α) : (fields : List (String × Value)) →
    writeFields f fields = Json.writeMembers f (fieldsToJson fields)
  | [] => rfl
  | (k, v) :: rest => by
    rw [writeFields, fieldsToJson, Json.writeMembers, write_toJson f v, writeFields_toJson f rest]

end

/-- The compact text of a value is the text of its document. -/
theorem write_compact (v : Value) : v.write .jsonText = v.toJson.compact := by
  rw [write_toJson, Json.write_jsonText]

/-! ### The shape of a document -/

/-- The document of a number. -/
inductive NumberDocument (x : Float) : Json → Prop
  | integer {i : ℤ} : Number.value? x = some (i : ℚ) → |i| < 2 ^ 53 → NumberDocument x (.integer i)
  | number {q : ℚ} : Number.value? x = some q → (∀ i : ℤ, q = i → 2 ^ 53 ≤ |i|) →
      NumberDocument x (.number x)
  | null : Number.value? x = none → NumberDocument x .null

mutual

/-- The document of a value: what JSON has nothing for is null, and the rest is kept. -/
inductive Document : Value → Json → Prop
  | undefined : Document .undefined .null
  | null : Document .null .null
  | function (f : Function Value) : Document (.function f) .null
  | deferred (id : Nat) : Document (.deferred id) .null
  | bool (b : Bool) : Document (.bool b) (.bool b)
  | number {x : Float} {j : Json} : NumberDocument x j → Document (.number x) j
  | string (s : String) : Document (.string s) (.string s)
  | array {items : List Value} {js : List Json} : ItemDocuments items js →
      Document (.array items) (.array js)
  | object {fields : List (String × Value)} {members : List (String × Json)} :
      FieldDocuments fields members → Document (.object fields) (.object members)

inductive ItemDocuments : List Value → List Json → Prop
  | nil : ItemDocuments [] []
  | cons {v : Value} {j : Json} {items : List Value} {js : List Json} : Document v j →
      ItemDocuments items js → ItemDocuments (v :: items) (j :: js)

inductive FieldDocuments : List (String × Value) → List (String × Json) → Prop
  | nil : FieldDocuments [] []
  | cons {k : String} {v : Value} {j : Json} {fields : List (String × Value)}
      {members : List (String × Json)} : Document v j → FieldDocuments fields members →
      FieldDocuments ((k, v) :: fields) ((k, j) :: members)

end

/-- The numbers written as integers are the integers below `2 ^ 53` in magnitude. -/
theorem writtenWhole_iff :
    writtenWhole x = true ↔ ∃ i : ℤ, Number.value? x = some (i : ℚ) ∧ |i| < 2 ^ 53 := by
  unfold writtenWhole
  rw [Bool.and_eq_true, decide_eq_true_iff, Number.isInteger_iff]
  constructor
  · rintro ⟨⟨i, hi⟩, hless⟩
    obtain ⟨e, he, hvalue⟩ := Option.map_eq_some_iff.mp hi
    have hwhole := (Number.abs_lt_iff he).mp hless
    rw [Exact.whole_of_value hvalue] at hwhole
    exact ⟨i, hi, by rw [Int.abs_eq_natAbs]; exact_mod_cast hwhole⟩
  · rintro ⟨i, hi, hless⟩
    obtain ⟨e, he, hvalue⟩ := Option.map_eq_some_iff.mp hi
    refine ⟨⟨i, hi⟩, (Number.abs_lt_iff he).mpr ?_⟩
    rw [Exact.whole_of_value hvalue]
    rw [Int.abs_eq_natAbs] at hless
    exact_mod_cast hless

/-- Conversion to 64 bits is exact for them. -/
theorem toInt_eq {i : ℤ} (h : Number.value? x = some (i : ℚ)) (hi : |i| < 2 ^ 53) :
    Number.toInt x = i := by
  obtain ⟨e, he, hvalue⟩ := Option.map_eq_some_iff.mp h
  unfold Number.toInt
  rw [he]
  simp only [Exact.truncated_of_value hvalue, Number.int64Range]
  have hbounds := abs_lt.mp hi
  omega

theorem numberDocument (x : Float) : NumberDocument x (toJson (.number x)) := by
  rw [toJson]
  split
  · next hwhole =>
    obtain ⟨i, hi, hless⟩ := writtenWhole_iff.mp hwhole
    rw [toInt_eq hi hless]
    exact .integer hi hless
  · next hwhole =>
    rw [Number.isFinite_eq]
    cases h : Number.decode? x with
    | none => exact .null (by rw [Number.value?, h]; rfl)
    | some e =>
      have hvalue : Number.value? x = some e.value := by rw [Number.value?, h]; rfl
      refine .number hvalue fun i hi => ?_
      by_contra hless
      exact hwhole (writtenWhole_iff.mpr ⟨i, hi ▸ hvalue, not_le.mp hless⟩)

mutual

theorem document : (v : Value) → v.Document v.toJson
  | .undefined => .undefined
  | .null => .null
  | .bool b => .bool b
  | .number x => .number (numberDocument x)
  | .string s => .string s
  | .array items => .array (itemDocuments items)
  | .object fields => .object (fieldDocuments fields)
  | .function f => .function f
  | .deferred id => .deferred id

theorem itemDocuments : (items : List Value) → ItemDocuments items (itemsToJson items)
  | [] => .nil
  | v :: rest => .cons (document v) (itemDocuments rest)

theorem fieldDocuments : (fields : List (String × Value)) →
    FieldDocuments fields (fieldsToJson fields)
  | [] => .nil
  | (_, v) :: rest => .cons (document v) (fieldDocuments rest)

end

/-- Every value, written as JSON, is its document. -/
theorem write_json_eq_toJson (v : Value) : v.write .json = v.toJson ∧ v.Document v.toJson :=
  ⟨(write_toJson .json v).trans v.toJson.write_json, document v⟩

end Value

end Formula

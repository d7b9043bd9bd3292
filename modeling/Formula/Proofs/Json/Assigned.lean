import Formula.Command
import Formula.Proofs.Json.Reading
import Formula.Proofs.Json.Recovered

/-!
# Values as they are printed and assigned

The command prints a value as its document, and an assignment gives a variable the value of a
document. So what was printed can be assigned again: the variable is equal to the value that was
printed, if JSON has a form for all of it and fewer than 128 arrays and objects are inside one
another in it. A text that is nested deeper is no document for the reader, and the variable is the
text itself.
-/

namespace Formula

namespace Value

theorem NumberDocument.isPrintable {x : Float} {j : Json} (h : NumberDocument x j) :
    j.isPrintable = true := by
  cases h with
  | integer _ hless =>
    have hbounds := abs_lt.mp hless
    simp only [Json.isPrintable, Bool.and_eq_true, decide_eq_true_eq]
    omega
  | number hvalue _ =>
    obtain ⟨e, he, -⟩ := Option.map_eq_some_iff.mp hvalue
    rw [Json.isPrintable, Number.isFinite_eq, he]
    rfl
  | null _ => rfl

mutual

/-- The document of a value has integers that fit and finite numbers. -/
theorem isPrintable_toJson : (v : Value) → v.toJson.isPrintable = true
  | .undefined | .null | .bool _ | .string _ | .function _ | .deferred _ => rfl
  | .number x => (numberDocument x).isPrintable
  | .array items => itemsPrintable_toJson items
  | .object fields => membersPrintable_toJson fields

theorem itemsPrintable_toJson : (items : List Value) →
    Json.itemsPrintable (itemsToJson items) = true
  | [] => rfl
  | v :: rest => by
    rw [itemsToJson, Json.itemsPrintable, isPrintable_toJson v, itemsPrintable_toJson rest]
    rfl

theorem membersPrintable_toJson : (fields : List (String × Value)) →
    Json.membersPrintable (fieldsToJson fields) = true
  | [] => rfl
  | (_, v) :: rest => by
    rw [fieldsToJson, Json.membersPrintable, isPrintable_toJson v, membersPrintable_toJson rest]
    rfl

end

end Value

namespace Command

variable {name : String}

/-- An assignment is split at its first equals sign. What is behind the sign is a document or stands
for itself. -/
theorem binding?_append (hname : '=' ∉ name.toList) (raw : String) :
    binding? (name ++ "=" ++ raw) = some (String.ofList (Text.trim name.toList),
      ((Json.read? raw).map Value.ofJson).getD (.string raw)) := by
  have hbefore : ∀ c ∈ name.toList, (c != '=') = true := fun c hc =>
    bne_iff_ne.mpr fun heq => hname (heq ▸ hc)
  obtain ⟨htake, hdrop⟩ := takeWhile_append hbefore fun c
      (hc : c ∈ ('=' :: raw.toList).head?) => by
    obtain rfl : '=' = c := Option.some.inj hc
    rfl
  have htext : (name ++ "=" ++ raw).toList = name.toList ++ '=' :: raw.toList := by simp
  unfold binding?
  rw [htext, hdrop, htake]
  simp only [String.ofList_toList]
  cases Json.read? raw <;> rfl

/-- The text of a value's document as an assignment, whichever of both texts it is. -/
theorem binding?_documentText (hname : '=' ∉ name.toList) (inv : Invocation) (v : Value) :
    binding? (name ++ "=" ++ documentText inv v.toJson) =
      some (String.ofList (Text.trim name.toList),
        if v.toJson.nesting < 128 then .ofJson v.toJson
        else .string (documentText inv v.toJson)) := by
  obtain ⟨hcompact, hpretty⟩ := Json.read?_texts v.isPrintable_toJson
  have hread : Json.read? (documentText inv v.toJson) =
      if v.toJson.nesting < 128 then some v.toJson else none := by
    unfold documentText
    split
    · exact hpretty
    · exact hcompact
  rw [binding?_append hname, hread]
  by_cases hnesting : v.toJson.nesting < 128
  · rw [if_pos hnesting, if_pos hnesting]
    rfl
  · rw [if_neg hnesting, if_neg hnesting]
    rfl

/-- What was printed can be assigned without loss. -/
theorem binding?_recovers {v : Value} (hname : '=' ∉ name.toList) (inv : Invocation)
    (hv : v.isPortable = true) (hnesting : v.toJson.nesting < 128) :
    ∃ u, binding? (name ++ "=" ++ documentText inv v.toJson) =
        some (String.ofList (Text.trim name.toList), u) ∧
      u.equal v = true ∧ (v.isExact = true → u = v) := by
  refine ⟨.ofJson v.toJson, ?_, Value.equal_ofJson v hv, Value.ofJson_eq v hv⟩
  rw [binding?_documentText hname, if_pos hnesting]

end Command

end Formula

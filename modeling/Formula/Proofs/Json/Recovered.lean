import Formula.Proofs.Printed.Literals
import Formula.Proofs.Scope.InPlace
import Formula.Proofs.Values.Documents
import Formula.Proofs.Values.Equality

/-!
# Values from their documents

A value of null, booleans, finite numbers, strings, arrays and objects is equal to what its JSON
document gives back, whatever its depth: an integer is converted to the double that it was, any
other number is kept, and the names of an object come in their order. Only a zero loses its sign,
which equality does not see.
-/

namespace Formula

/-! ### Records -/

namespace Record

variable {α : Type} {r pairs : Record α}

/-- Names that follow those of a record in ascending order are set behind them. -/
theorem update_of_ascending (h : Ascending (r ++ pairs)) : update r pairs = r ++ pairs := by
  induction pairs generalizing r with
  | nil => rw [List.append_nil, update, List.foldl_nil]
  | cons p rest ih =>
    have hlast : ∀ q ∈ r, q.1 < p.1 := fun q hq =>
      (List.pairwise_append.mp h).2.2 q hq p List.mem_cons_self
    have hinsert : insert r p.1 p.2 = r ++ [p] := Value.insert_last hlast p.2
    rw [List.append_cons] at h ⊢
    rw [← ih h, ← hinsert, update, update, List.foldl_cons]

theorem ofPairs_of_ascending (h : Ascending r) : ofPairs r = r := update_of_ascending (r := []) h

/-- Whether names ascend does not depend on the values. -/
theorem ascending_iff_names : Ascending r ↔ r.names.Pairwise (· < ·) := List.pairwise_map.symm

end Record

/-! ### Numbers -/

namespace Number

open Rounding

variable {x : Float} {i : ℤ}

theorem ofInt_eq_finite {negative : Bool} {M : ℕ} {E : ℤ} (hc : Canonical M E) (hE : E ≤ 971)
    (h : Exact.value ⟨negative, M, E⟩ = i) : Float.ofInt i = finite negative M E hc.pos := by
  have hpositive : 0 < Exact.magnitude ⟨negative, M, E⟩ :=
    mul_pos (by exact_mod_cast hc.pos) (two_zpow_pos E)
  cases negative with
  | false =>
    have hvalue : Exact.magnitude ⟨false, M, E⟩ = i := h
    have hi : 0 < i := by
      rw [hvalue] at hpositive
      exact_mod_cast hpositive
    obtain ⟨n, rfl⟩ := Int.eq_ofNat_of_zero_le hi.le
    exact ofNat_eq_finite hc hE (by exact_mod_cast hvalue.symm)
  | true =>
    have hvalue : -Exact.magnitude ⟨true, M, E⟩ = i := h
    have hi : i < 0 := by
      have hnegative := neg_neg_of_pos hpositive
      rw [hvalue] at hnegative
      exact_mod_cast hnegative
    obtain ⟨n, rfl⟩ := Int.eq_negSucc_of_lt_zero hi
    have hn : ((n + 1 : ℕ) : ℚ) = M * 2 ^ E := by
      rw [Int.cast_negSucc] at hvalue
      exact (neg_injective hvalue).symm
    have hopposite : Float.ofInt (Int.negSucc n) = -Float.ofNat (n + 1) := rfl
    rw [hopposite, ofNat_eq_finite hc hE hn, neg_finite false hc hE]
    rfl

/-- The integer that a double stands for is converted to this double, but for the sign of a
zero. -/
theorem ofInt_of_value (h : value? x = some (i : ℚ)) :
    (Float.ofInt i == x) = true ∧ ((Value.number x).isExact = true → Float.ofInt i = x) := by
  obtain ⟨⟨negative, M, E⟩, he, hvalue⟩ := Option.map_eq_some_iff.mp h
  rcases Nat.eq_zero_or_pos M with rfl | hM
  · have hi : i = 0 := by
      have hzero : signed negative 0 = (i : ℚ) := by simpa [Exact.value, Exact.magnitude] using hvalue
      cases negative <;> simpa [signed] using hzero.symm
    subst hi
    refine ⟨(zero_parts he).2, fun hexact => ?_⟩
    rw [eq_zero he] at hexact ⊢
    cases negative with
    | false => rfl
    | true => exact absurd hexact (by decide)
  · obtain ⟨hc, hE, rfl⟩ := eq_finite he hM.ne'
    have hinteger := ofInt_eq_finite hc hE hvalue
    exact ⟨hinteger ▸ finite_beq_self negative hc hE, fun _ => hinteger⟩

theorem beq_self_of_finite (h : x.isFinite = true) : (x == x) = true := by
  rw [isFinite_eq] at h
  obtain ⟨⟨negative, M, E⟩, he⟩ := Option.isSome_iff_exists.mp h
  rcases Nat.eq_zero_or_pos M with rfl | hM
  · rw [eq_zero he]
    cases negative <;> decide
  · exact beq_self he hM.ne'

end Number

/-! ### Values -/

namespace Value

mutual

/-- Whether JSON has a form for all parts of a value: nothing is undefined, a function, deferred, NaN
or infinite. Names stand in ascending order, as in every object. -/
def isPortable : Value → Bool
  | .null | .bool _ | .string _ => true
  | .number x => x.isFinite
  | .array items => itemsPortable items
  | .object fields => decide ((Record.names fields).Pairwise (· < ·)) && fieldsPortable fields
  | .undefined | .function _ | .deferred _ => false

def itemsPortable : List Value → Bool
  | [] => true
  | v :: rest => isPortable v && itemsPortable rest

def fieldsPortable : List (String × Value) → Bool
  | [] => true
  | (_, v) :: rest => isPortable v && fieldsPortable rest

end

theorem ofJson_number {x : Float} (h : x.isFinite = true) :
    (ofJson (toJson (.number x))).equal (.number x) = true ∧
      ((Value.number x).isExact = true → ofJson (toJson (.number x)) = .number x) := by
  have hdocument := numberDocument x
  generalize toJson (.number x) = j at hdocument
  cases hdocument with
  | integer hvalue _ =>
    obtain ⟨hequal, hexact⟩ := Number.ofInt_of_value hvalue
    exact ⟨hequal, fun hx => congrArg Value.number (hexact hx)⟩
  | number _ _ => exact ⟨Number.beq_self_of_finite h, fun _ => rfl⟩
  | null hvalue =>
    rw [Number.isFinite_eq] at h
    rw [Number.value?, Option.map_eq_none_iff] at hvalue
    rw [hvalue] at h
    cases h

/-! ### Names -/

theorem names_fieldsToJson (fields : List (String × Value)) :
    Record.names (fieldsToJson fields) = Record.names fields := by
  induction fields with
  | nil => rfl
  | cons p rest ih =>
    rw [fieldsToJson, Record.names, List.map_cons]
    exact congrArg (p.1 :: ·) ih

theorem names_membersOfJson (members : List (String × Json)) :
    Record.names (membersOfJson members) = Record.names members := by
  induction members with
  | nil => rfl
  | cons p rest ih =>
    rw [membersOfJson, Record.names, List.map_cons]
    exact congrArg (p.1 :: ·) ih

/-- The document of an object in order gives the names back in order. -/
theorem ofJson_object {fields : List (String × Value)}
    (h : (Record.names fields).Pairwise (· < ·)) :
    ofJson (toJson (.object fields)) = .object (membersOfJson (fieldsToJson fields)) := by
  rw [toJson, ofJson, Record.ofPairs_of_ascending]
  rw [Record.ascending_iff_names, names_membersOfJson, names_fieldsToJson]
  exact h

/-! ### Equal values -/

mutual

/-- The document of a value gives back an equal value. -/
theorem equal_ofJson : (v : Value) → v.isPortable = true → (ofJson v.toJson).equal v = true
  | .null, _ => rfl
  | .bool b, _ => beq_self_eq_true b
  | .string s, _ => beq_self_eq_true s
  | .number _, h => (ofJson_number h).1
  | .array items, h => equalItems_ofJson items h
  | .object fields, h => by
    obtain ⟨hnames, hfields⟩ := Bool.and_eq_true_iff.mp h
    rw [ofJson_object (of_decide_eq_true hnames)]
    exact equalFields_ofJson fields hfields

theorem equalItems_ofJson : (items : List Value) → itemsPortable items = true →
    equalItems (itemsOfJson (itemsToJson items)) items = true
  | [], _ => rfl
  | v :: rest, h => by
    obtain ⟨hv, hrest⟩ := Bool.and_eq_true_iff.mp h
    rw [itemsToJson, itemsOfJson, equalItems, equal_ofJson v hv, equalItems_ofJson rest hrest]
    rfl

theorem equalFields_ofJson : (fields : List (String × Value)) → fieldsPortable fields = true →
    equalFields (membersOfJson (fieldsToJson fields)) fields = true
  | [], _ => rfl
  | (k, v) :: rest, h => by
    obtain ⟨hv, hrest⟩ := Bool.and_eq_true_iff.mp h
    rw [fieldsToJson, membersOfJson, equalFields, equal_ofJson v hv, equalFields_ofJson rest hrest,
      beq_self_eq_true]
    rfl

end

mutual

/-- It gives back the value itself if no sign of a zero is lost. -/
theorem ofJson_eq : (v : Value) → v.isPortable = true → v.isExact = true → ofJson v.toJson = v
  | .null, _, _ | .bool _, _, _ | .string _, _, _ => rfl
  | .number _, h, hexact => (ofJson_number h).2 hexact
  | .array items, h, hexact => congrArg Value.array (itemsOfJson_eq items h hexact)
  | .object fields, h, hexact => by
    obtain ⟨hnames, hfields⟩ := Bool.and_eq_true_iff.mp h
    rw [ofJson_object (of_decide_eq_true hnames), membersOfJson_eq fields hfields hexact]

theorem itemsOfJson_eq : (items : List Value) → itemsPortable items = true →
    itemsExact items = true → itemsOfJson (itemsToJson items) = items
  | [], _, _ => rfl
  | v :: rest, h, hexact => by
    obtain ⟨hv, hrest⟩ := Bool.and_eq_true_iff.mp h
    obtain ⟨hhere, hlater⟩ := Bool.and_eq_true_iff.mp hexact
    rw [itemsToJson, itemsOfJson, ofJson_eq v hv hhere, itemsOfJson_eq rest hrest hlater]

theorem membersOfJson_eq : (fields : List (String × Value)) → fieldsPortable fields = true →
    fieldsExact fields = true → membersOfJson (fieldsToJson fields) = fields
  | [], _, _ => rfl
  | (k, v) :: rest, h, hexact => by
    obtain ⟨hv, hrest⟩ := Bool.and_eq_true_iff.mp h
    obtain ⟨hhere, hlater⟩ := Bool.and_eq_true_iff.mp hexact
    rw [fieldsToJson, membersOfJson, ofJson_eq v hv hhere, membersOfJson_eq rest hrest hlater]

end

/-- Of a value that JSON has a form for, at any depth, the document gives back an equal value, and
the value itself unless a zero in it has a sign. -/
theorem ofJson_toJson {v : Value} (h : v.isPortable = true) :
    (ofJson v.toJson).equal v = true ∧ (v.isExact = true → ofJson v.toJson = v) :=
  ⟨equal_ofJson v h, ofJson_eq v h⟩

/-- Integers on both sides of the bound at which their form in the document changes, a fraction, and
empty parts inside of others. -/
def portableValue : Value :=
  .object [("a", .array [.number 9007199254740991.0, .number 9007199254740992.0, .number (-1.5e-7),
    .null, .array [.object []]]), ("a b", .object [("é", .bool true), ("\u2028", .string "\"\\")])]

theorem portable_ofJson : portableValue.isPortable = true ∧ portableValue.isExact = true ∧
    (ofJson portableValue.toJson).equal portableValue = true ∧
      ofJson portableValue.toJson = portableValue := by
  have hportable : portableValue.isPortable = true := by decide
  have hexact : portableValue.isExact = true := by decide
  obtain ⟨hequal, heq⟩ := ofJson_toJson hportable
  exact ⟨hportable, hexact, hequal, heq hexact⟩

end Value

end Formula

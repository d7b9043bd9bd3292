import Formula.Proofs.Values.Flow

/-!
# Settled values

A value is settled when nothing in it is deferred, at any depth of arrays and objects. What a
function has captured does not count: it is not read when the function is passed on.
-/

namespace Formula

namespace Value

mutual

/-- Whether nothing in a value is deferred. -/
def isSettled : Value → Bool
  | .deferred _ => false
  | .array items => itemsSettled items
  | .object fields => fieldsSettled fields
  | _ => true

def itemsSettled : List Value → Bool
  | [] => true
  | v :: rest => isSettled v && itemsSettled rest

def fieldsSettled : List (String × Value) → Bool
  | [] => true
  | (_, v) :: rest => isSettled v && fieldsSettled rest

end

/-- A value in which nothing is deferred. -/
def Settled (v : Value) : Prop := v.isSettled = true

instance (v : Value) : Decidable v.Settled := inferInstanceAs (Decidable (v.isSettled = true))

theorem itemsSettled_iff (items : List Value) :
    itemsSettled items = true ↔ ∀ v ∈ items, v.Settled := by
  induction items with
  | nil => simp [itemsSettled]
  | cons v rest ih => simp [itemsSettled, ih, Settled]

theorem fieldsSettled_iff (fields : List (String × Value)) :
    fieldsSettled fields = true ↔ ∀ p ∈ fields, p.2.Settled := by
  induction fields with
  | nil => simp [fieldsSettled]
  | cons p rest ih =>
    obtain ⟨key, v⟩ := p
    simp [fieldsSettled, ih, Settled]

theorem settled_hereditary : Hereditary Settled where
  undefined := rfl
  bool _ := rfl
  number _ := rfl
  string _ := rfl
  array h := (itemsSettled_iff _).mpr h
  items h := (itemsSettled_iff _).mp h
  fields h := (fieldsSettled_iff _).mp h

theorem Settled.isDeferred {v : Value} (h : v.Settled) : v.isDeferred = false := by
  cases v with
  | deferred id => cases h
  | _ => rfl

end Value

/-- Variables with settled values. -/
def Bindings.Settled (b : Bindings) : Prop := ∀ p ∈ b, p.2.Settled

end Formula

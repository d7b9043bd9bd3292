/-!
# Records

A record maps names to values. It is a list of pairs kept in ascending order of the names, so two
records with the same content are the same list.
-/

namespace Formula

/-- Names with their values, in ascending order of the names. -/
abbrev Record (α : Type) := List (String × α)

namespace Record

variable {α β : Type}

/-- The value of a name. -/
def get? : Record α → String → Option α
  | [], _ => none
  | (k, v) :: rest, name => if k = name then some v else get? rest name

/-- Whether a name has a value. -/
def has (r : Record α) (name : String) : Bool := (get? r name).isSome

/-- Sets the value of a name. -/
def insert : Record α → String → α → Record α
  | [], name, v => [(name, v)]
  | (k, w) :: rest, name, v =>
    if k = name then (name, v) :: rest
    else if name < k then (name, v) :: (k, w) :: rest
    else (k, w) :: insert rest name v

/-- Removes a name and its value. -/
def erase : Record α → String → Record α
  | [], _ => []
  | (k, w) :: rest, name => if k = name then rest else (k, w) :: erase rest name

/-- The record of a list of pairs; of two values for one name the later counts. -/
def ofPairs (pairs : List (String × α)) : Record α :=
  pairs.foldl (fun r p => insert r p.1 p.2) []

/-- Every pair of the second record is set in the first. -/
def update (r : Record α) (pairs : List (String × α)) : Record α :=
  pairs.foldl (fun r p => insert r p.1 p.2) r

/-- The names, in ascending order. -/
def names (r : Record α) : List String := r.map Prod.fst

@[simp] theorem get?_nil (name : String) : get? ([] : Record α) name = none := rfl

theorem get?_insert_self (r : Record α) (name : String) (v : α) :
    get? (insert r name v) name = some v := by
  induction r with
  | nil => simp [insert, get?]
  | cons p rest ih =>
    obtain ⟨k, w⟩ := p
    by_cases hk : k = name
    · simp [insert, hk, get?]
    · by_cases hlt : name < k <;> simp [insert, hk, hlt, get?, ih]

theorem get?_insert_of_ne (r : Record α) {name other : String} (v : α) (h : other ≠ name) :
    get? (insert r name v) other = get? r other := by
  induction r with
  | nil => simp [insert, get?, Ne.symm h]
  | cons p rest ih =>
    obtain ⟨k, w⟩ := p
    by_cases hk : k = name
    · subst hk
      simp [insert, get?, Ne.symm h]
    · by_cases hlt : name < k
      · simp [insert, hk, hlt, get?, Ne.symm h]
      · simp only [insert, hk, hlt, if_false, get?]
        split
        · rfl
        · exact ih

end Record

end Formula

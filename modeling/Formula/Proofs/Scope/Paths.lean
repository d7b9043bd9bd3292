import Formula.Bindings
import Mathlib.Data.List.Infix

/-!
# Reading and assigning at paths

A path of names leads through the members of objects. An assignment at a path is refused at a
reserved name and where a value on the way can have no members; otherwise the path leads to the
value assigned, and what the path does not touch is as before.
-/

namespace Formula

/-! ### Reading -/

namespace Value

/-- The value at a path of members below a value. -/
def read? : List String → Value → Option Value
  | [], v => some v
  | name :: path, .object fields => (Record.get? fields name).bind (read? path)
  | _ :: _, _ => none

/-- Whether the value at a path can have no members: it is neither an object nor undefined. -/
def Blocked (target : Value) (path : List String) : Prop :=
  ∃ v, read? path target = some v ∧ v ≠ .undefined ∧ ∀ fields, v ≠ .object fields

/-- What an assignment at a path does to the value that it starts from. -/
structure Assigned (before : Value) (path : List String) (v after : Value) : Prop where
  read : read? path after = some v
  siblings : ∀ front name back fields, path = front ++ name :: back →
    read? front before = some (.object fields) →
    ∃ fields', read? front after = some (.object fields') ∧
      ∀ key ≠ name, Record.get? fields' key = Record.get? fields key
  others : ∀ other, ¬ other <+: path → ¬ path <+: other → read? other after = read? other before

attribute [local simp] read?

theorem read?_append (front back : List String) (target : Value) :
    read? (front ++ back) target = (read? front target).bind (read? back) := by
  induction front generalizing target with
  | nil => rfl
  | cons name front ih =>
    cases target with
    | object fields =>
      rw [List.cons_append, read?, read?, Option.bind_assoc]
      exact congrArg _ (funext ih)
    | _ => rfl

theorem read?_insert_self (fields : Record Value) (name : String) (v : Value)
    (path : List String) :
    read? (name :: path) (.object (Record.insert fields name v)) = read? path v := by
  simp [Record.get?_insert_self]

theorem read?_insert_of_ne (fields : Record Value) {name other : String} (v : Value)
    (path : List String) (h : other ≠ name) :
    read? (other :: path) (.object (Record.insert fields name v)) =
      read? (other :: path) (.object fields) := by
  simp [Record.get?_insert_of_ne fields v h]

end Value

namespace Bindings

open Value (read? Blocked Assigned)

attribute [local simp] fields? read?

theorem fields?_eq_none {v : Value} :
    fields? v = none ↔ v ≠ .undefined ∧ ∀ fields, v ≠ .object fields := by
  cases v <;> simp

theorem blocked_iff {target : Value} {path : List String} :
    Blocked target path ↔ ∃ v, read? path target = some v ∧ fields? v = none := by
  simp only [Blocked, fields?_eq_none]

theorem blocked_nil {target : Value} : Blocked target [] ↔ fields? target = none := by
  simp [blocked_iff]

variable {target : Value} {fields : List (String × Value)}

/-- An undefined value is read like an object without fields. -/
theorem read?_cons (h : fields? target = some fields) (name : String) (path : List String) :
    read? (name :: path) target = (Record.get? fields name).bind (read? path) := by
  cases target <;> simp_all

theorem read?_cons_of_blocked (h : fields? target = none) (name : String) (path : List String) :
    read? (name :: path) target = none := by
  cases target <;> simp_all

theorem read?_object (h : fields? target = some fields) (name : String) (path : List String) :
    read? (name :: path) target = read? (name :: path) (.object fields) := by
  rw [read?_cons h, read?]

/-- The value that an assignment goes on with below an object: its member, or a new object. -/
def child (fields : Record Value) (name : String) : Value :=
  (Record.get? fields name).getD (.object [])

/-- A new object has nothing below it. -/
theorem read?_child (h : fields? target = some fields) (name : String) {path : List String}
    (hpath : path ≠ []) :
    read? (name :: path) target = read? path (child fields name) := by
  rw [read?_cons h, child]
  cases Record.get? fields name with
  | some v => rfl
  | none =>
    obtain ⟨next, rest, rfl⟩ := List.exists_cons_of_ne_nil hpath
    rfl

theorem read?_child_of_eq_some (h : fields? target = some fields) {name : String}
    {path : List String} {x : Value} (hx : read? (name :: path) target = some x) :
    read? path (child fields name) = some x := by
  rw [read?_cons h, Option.bind_eq_some_iff] at hx
  obtain ⟨member, hmember, hx⟩ := hx
  rw [child, hmember]
  exact hx

theorem blocked_cons (h : fields? target = some fields) (name : String) (path : List String) :
    Blocked target (name :: path) ↔ Blocked (child fields name) path := by
  cases path with
  | cons next rest => simp only [Blocked, read?_child h name (List.cons_ne_nil next rest)]
  | nil =>
    simp only [Blocked, read?_cons h, child]
    cases Record.get? fields name <;> simp

/-- Nothing is found below a value that can have no members, so it is the only one on a path. -/
theorem not_blocked_of_prefix {shorter longer : List String} (h : shorter <+: longer)
    (hne : shorter ≠ longer) (hlonger : Blocked target longer) : ¬ Blocked target shorter := by
  rw [blocked_iff] at hlonger ⊢
  obtain ⟨back, rfl⟩ := h
  rintro ⟨x, hx, hnone⟩
  obtain ⟨y, hy, -⟩ := hlonger
  cases back with
  | nil => simp at hne
  | cons name back =>
    rw [Value.read?_append, hx, Option.bind_some, read?_cons_of_blocked hnone] at hy
    cases hy

/-! ### Below a value -/

/-- An assignment below a value ends at a value that can have no members or at the last name, or
goes on with the child of the next name. -/
theorem path_induction {motive : String → Value → String → List String → Prop}
    (blocked : ∀ name target next rest, fields? target = none → motive name target next rest)
    (last : ∀ name target fields next, fields? target = some fields → motive name target next [])
    (below : ∀ name target fields next second rest, fields? target = some fields →
      motive next (child fields next) second rest → motive name target next (second :: rest))
    (name : String) (target : Value) (next : String) (rest : List String) :
    motive name target next rest := by
  induction rest generalizing name target next with
  | nil =>
    cases h : fields? target with
    | none => exact blocked name target next [] h
    | some fields => exact last name target fields next h
  | cons second rest ih =>
    cases h : fields? target with
    | none => exact blocked name target next _ h
    | some fields => exact below name target fields next second rest h (ih next _ second)

section Below

variable (whole : String) (v : Value) (name next second : String) (rest : List String)

theorem assignInto_of_blocked (path : List String) (h : fields? target = none) :
    assignInto whole v name target path = .error (.invalidMember whole name) := by
  cases path <;> rw [assignInto, h]

theorem assignInto_last (h : fields? target = some fields) :
    assignInto whole v name target [next] = .ok (.object (Record.insert fields next v)) := by
  rw [assignInto, h]

theorem assignInto_cons (h : fields? target = some fields) :
    assignInto whole v name target (next :: second :: rest) =
      (assignInto whole v next (child fields next) (second :: rest)).map
        fun below => .object (Record.insert fields next below) := by
  rw [assignInto, h]
  change (assignInto whole v next (child fields next) (second :: rest) >>= fun below =>
    .ok (Value.object (Record.insert fields next below))) = _
  cases assignInto whole v next (child fields next) (second :: rest) <;> rfl

theorem assignInto_cons_eq_error (h : fields? target = some fields) {e : EvalError} :
    assignInto whole v name target (next :: second :: rest) = .error e ↔
      assignInto whole v next (child fields next) (second :: rest) = .error e := by
  rw [assignInto_cons whole v name next second rest h]
  cases assignInto whole v next (child fields next) (second :: rest) <;> simp [Except.map]

theorem assignInto_cons_eq_ok (h : fields? target = some fields) {after : Value} :
    assignInto whole v name target (next :: second :: rest) = .ok after ↔
      ∃ below, assignInto whole v next (child fields next) (second :: rest) = .ok below ∧
        after = .object (Record.insert fields next below) := by
  rw [assignInto_cons whole v name next second rest h]
  cases assignInto whole v next (child fields next) (second :: rest) <;>
    simp [Except.map, eq_comm]

end Below

/-- An assignment below a value fails exactly at a value on its way that can have no members. -/
theorem assignInto_eq_error (whole : String) (v : Value) (e : EvalError) (name : String)
    (target : Value) (next : String) (rest : List String) :
    assignInto whole v name target (next :: rest) = .error e ↔
      ∃ front back, next :: rest = front ++ back ∧ back ≠ [] ∧ Blocked target front ∧
        e = .invalidMember whole (front.getLastD name) := by
  induction name, target, next, rest using path_induction with
  | blocked name target next rest h =>
    rw [assignInto_of_blocked whole v name _ h]
    constructor
    · intro he
      exact ⟨[], next :: rest, rfl, by simp, blocked_nil.mpr h, by cases he; rfl⟩
    · rintro ⟨front, back, -, -, hblocked, rfl⟩
      cases front with
      | nil => rfl
      | cons n front =>
        obtain ⟨x, hx, -⟩ := hblocked
        rw [read?_cons_of_blocked h] at hx
        cases hx
  | last name target fields next h =>
    rw [assignInto_last whole v name next h]
    constructor
    · intro he
      cases he
    · rintro ⟨front, back, heq, hback, hblocked, -⟩
      obtain ⟨rfl, -⟩ | ⟨-, rfl⟩ := List.singleton_eq_append_iff.mp heq
      · rw [blocked_nil, h] at hblocked
        cases hblocked
      · exact absurd rfl hback
  | below name target fields next second rest h ih =>
    -- The value itself is no obstacle, so the obstacle lies below its member.
    rw [assignInto_cons_eq_error whole v name next second rest h, ih]
    constructor
    · rintro ⟨front, back, heq, hback, hblocked, he⟩
      exact ⟨next :: front, back, by rw [heq, List.cons_append], hback,
        (blocked_cons h _ _).mpr hblocked, by rw [he, List.getLastD_cons]⟩
    · rintro ⟨front, back, heq, hback, hblocked, he⟩
      cases front with
      | nil =>
        rw [blocked_nil, h] at hblocked
        cases hblocked
      | cons n front =>
        obtain ⟨rfl, hrest⟩ := List.cons.inj heq
        exact ⟨front, back, hrest, hback, (blocked_cons h _ _).mp hblocked,
          by rw [he, List.getLastD_cons]⟩

/-! ### Assignments that succeed -/

theorem assigned_nil (before v : Value) : Assigned before [] v v where
  read := rfl
  siblings front name back fields h _ := by simp at h
  others other _ h := absurd List.nil_prefix h

/-- Setting a member to what an assignment makes of it assigns below the member. -/
theorem assigned_cons (h : fields? target = some fields) (name : String) {path : List String}
    {v after : Value} (hbelow : Assigned (child fields name) path v after) :
    Assigned target (name :: path) v (.object (Record.insert fields name after)) where
  read := by rw [Value.read?_insert_self, hbelow.read]
  siblings front key back kept hpath hkept := by
    cases front with
    | nil =>
      obtain ⟨rfl, rfl⟩ := List.cons.inj hpath
      obtain rfl : target = .object kept := by simpa using hkept
      obtain rfl : kept = fields := by simpa using h
      exact ⟨Record.insert kept name after, rfl,
        fun other hne => Record.get?_insert_of_ne kept after hne⟩
    | cons n front =>
      obtain ⟨rfl, rfl⟩ := List.cons.inj hpath
      rw [Value.read?_insert_self]
      exact hbelow.siblings front key back kept rfl (read?_child_of_eq_some h hkept)
  others other hnot hnot' := by
    cases other with
    | nil => exact absurd List.nil_prefix hnot
    | cons n other =>
      by_cases hn : n = name
      · subst hn
        rw [List.prefix_cons_inj] at hnot hnot'
        have hother : other ≠ [] := by
          rintro rfl
          exact hnot List.nil_prefix
        rw [Value.read?_insert_self, read?_child h n hother]
        exact hbelow.others other hnot hnot'
      · rw [Value.read?_insert_of_ne fields after other hn, read?_object h]

theorem assignInto_assigned (whole : String) (v : Value) (name : String) (target : Value)
    (next : String) (rest : List String) (after : Value)
    (hok : assignInto whole v name target (next :: rest) = .ok after) :
    Assigned target (next :: rest) v after := by
  induction name, target, next, rest using path_induction generalizing after with
  | blocked name target next rest h =>
    rw [assignInto_of_blocked whole v name _ h] at hok
    cases hok
  | last name target fields next h =>
    rw [assignInto_last whole v name next h] at hok
    cases hok
    exact assigned_cons h next (assigned_nil _ v)
  | below name target fields next second rest h ih =>
    obtain ⟨below, hbelow, rfl⟩ :=
      (assignInto_cons_eq_ok whole v name next second rest h).mp hok
    exact assigned_cons h next (ih below hbelow)

/-! ### Variables -/

/-- The names that the dots of a path separate. -/
def names (path : String) : List String := (path.toList.splitOn '.').map String.ofList

theorem segments_eq_split (acc cs : List Char) :
    segments acc cs = (List.splitOnPPrepend (· == '.') cs acc).map String.ofList := by
  induction cs generalizing acc with
  | nil => rfl
  | cons c rest ih =>
    rw [segments, List.splitOnPPrepend_cons_eq_if, ih, ih]
    by_cases hc : c = '.' <;> simp [hc]

theorem segments_eq_names (path : String) : segments [] path.toList = names path :=
  segments_eq_split [] path.toList

theorem names_ne_nil (path : String) : names path ≠ [] := by
  simp [names]

theorem assignSegments_eq (b : Bindings) (whole : String) {path : List String} (v : Value)
    (h : path.find? isReserved = none) (hpath : path ≠ []) :
    (assignSegments b whole path v).map Value.object =
      assignInto whole v "" (.object b) path := by
  simp only [assignSegments, h]
  match path, hpath with
  | [name], _ => rfl
  | name :: next :: rest, _ =>
    rw [assignInto_cons whole v "" name next rest rfl]
    change Except.map _ (Except.bind (assignInto whole v name (child b name) (next :: rest)) _) = _
    cases assignInto whole v name (child b name) (next :: rest) <;> rfl

/-- Why an assignment at a path is refused: at the first reserved name in it, and otherwise at the
first value on the way that can have no members. -/
inductive Refused (b : Bindings) (path : String) : EvalError → Prop
  | reserved {front back : List String} {name : String} :
      names path = front ++ name :: back → isReserved name = true →
      (∀ other ∈ front, isReserved other = false) → Refused b path (.reservedName name)
  | blocked {front back : List String} {name : String} :
      names path = front ++ name :: back → back ≠ [] →
      (∀ other ∈ names path, isReserved other = false) →
      Blocked (.object b) (front ++ [name]) →
      (∀ shorter, shorter <+: front → ¬ Blocked (.object b) shorter) →
      Refused b path (.invalidMember path name)

variable {b : Bindings} {path : String} {e : EvalError}

theorem refused_of_reserved {name : String} (h : (names path).find? isReserved = some name) :
    Refused b path e ↔ e = .reservedName name := by
  obtain ⟨hname, front, back, hpath, hfront⟩ := List.find?_eq_some_iff_append.mp h
  constructor
  · intro hrefused
    cases hrefused with
    | reserved hpath' hname' hfront' =>
      have hfirst := List.find?_eq_some_iff_append.mpr ⟨hname', _, _, hpath', by simpa using hfront'⟩
      rw [Option.some.inj (hfirst.symm.trans h)]
    | blocked _ _ hfree =>
      rw [hfree name (by simp [hpath])] at hname
      cases hname
  · rintro rfl
    exact .reserved hpath hname (by simpa using hfront)

theorem refused_of_free (h : (names path).find? isReserved = none) :
    Refused b path e ↔ ∃ front back, names path = front ++ back ∧ back ≠ [] ∧
      Blocked (.object b) front ∧ e = .invalidMember path (front.getLastD "") := by
  have hfree : ∀ name ∈ names path, isReserved name = false := by simpa using h
  constructor
  · intro hrefused
    cases hrefused with
    | reserved hpath hname =>
      rw [hfree _ (by simp [hpath])] at hname
      cases hname
    | @blocked front back name hpath hback _ hblocked =>
      exact ⟨front ++ [name], back, by simp [hpath], hback, hblocked, by simp⟩
  · rintro ⟨front, back, hpath, hback, hblocked, rfl⟩
    obtain rfl | ⟨front, name, rfl⟩ := List.eq_nil_or_concat' front
    · rw [blocked_nil] at hblocked
      cases hblocked
    · rw [List.getLastD_concat]
      refine .blocked (by simpa using hpath) hback hfree hblocked fun shorter hshorter => ?_
      refine not_blocked_of_prefix (hshorter.trans (List.prefix_append _ _)) ?_ hblocked
      rintro rfl
      have hlength := hshorter.length_le
      rw [List.length_append, List.length_singleton] at hlength
      omega

theorem assignPath_of_free (b : Bindings) (v : Value)
    (h : (names path).find? isReserved = none) :
    ∃ next rest, names path = next :: rest ∧
      (assignPath b path v).map Value.object =
        assignInto path v "" (.object b) (next :: rest) := by
  obtain ⟨next, rest, hpath⟩ := List.exists_cons_of_ne_nil (names_ne_nil path)
  rw [assignPath, segments_eq_names]
  have hassign := assignSegments_eq b path v h (names_ne_nil path)
  exact ⟨next, rest, hpath, hassign.trans (by rw [hpath])⟩

theorem assignPath_of_reserved {name : String} (b : Bindings) (v : Value)
    (h : (names path).find? isReserved = some name) :
    assignPath b path v = .error (.reservedName name) := by
  simp only [assignPath, assignSegments, segments_eq_names, h]

theorem assignPath_eq_error (v : Value) : assignPath b path v = .error e ↔ Refused b path e := by
  cases h : (names path).find? isReserved with
  | some name =>
    rw [assignPath_of_reserved b v h, refused_of_reserved h]
    simp [eq_comm]
  | none =>
    obtain ⟨next, rest, hpath, hassign⟩ := assignPath_of_free b v h
    rw [refused_of_free h, hpath, ← assignInto_eq_error, ← hassign]
    cases assignPath b path v <;> simp [Except.map]

theorem assigned_of_ok {v : Value} {c : Bindings} (hok : assignPath b path v = .ok c) :
    Assigned (.object b) (names path) v (.object c) := by
  cases h : (names path).find? isReserved with
  | some name =>
    rw [assignPath_of_reserved b v h] at hok
    cases hok
  | none =>
    obtain ⟨next, rest, hpath, hassign⟩ := assignPath_of_free b v h
    rw [hok] at hassign
    rw [hpath]
    exact assignInto_assigned path v "" _ next rest _ hassign.symm

end Bindings

end Formula

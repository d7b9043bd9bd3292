import Formula.Proofs.Scope.Paths
import Formula.Proofs.Values.Guard

/-!
# Assigning in place

`writePath` assigns in place: it makes the objects that are missing while it descends, takes
undefined values for objects, and learns only further down that a value can have no members. On the
way to such a value every object is there already, so a refused assignment in place leaves the
variables as they were.
-/

namespace Formula

/-! ### Places in a record -/

namespace Record

variable {α : Type} {r : Record α} {name : String} {v : α}

/-- Names in ascending order. -/
def Ascending (r : Record α) : Prop := r.Pairwise fun p q => p.1 < q.1

/-- Puts a value for a name where it stands. -/
def replace : Record α → String → α → Record α
  | [], _, _ => []
  | (k, w) :: rest, name, v =>
    if k = name then (k, v) :: rest else (k, w) :: replace rest name v

/-- The record with a value for a name, which is put there if there is none, and the value. -/
def entry (r : Record α) (name : String) (fresh : α) : Record α × α :=
  match get? r name with
  | some v => (r, v)
  | none => (insert r name fresh, fresh)

theorem replace_self (h : get? r name = some v) : replace r name v = r := by
  induction r with
  | nil => rfl
  | cons p rest ih =>
    obtain ⟨k, w⟩ := p
    by_cases hk : k = name
    · simp_all [get?, replace]
    · simp_all [get?, replace]

theorem replace_insert (h : get? r name = none) (fresh v : α) :
    replace (insert r name fresh) name v = insert r name v := by
  induction r with
  | nil => simp [insert, replace]
  | cons p rest ih =>
    obtain ⟨k, w⟩ := p
    by_cases hk : k = name
    · simp [get?, hk] at h
    · by_cases hlt : name < k
      · simp [insert, hk, hlt, replace]
      · rw [get?, if_neg hk] at h
        simp only [insert, hk, hlt, if_false, replace, ih h]

theorem replace_eq_insert (hr : r.Ascending) (h : get? r name = some v) (w : α) :
    replace r name w = insert r name w := by
  induction r with
  | nil => cases h
  | cons p rest ih =>
    obtain ⟨k, u⟩ := p
    by_cases hk : k = name
    · simp [insert, hk, replace]
    · have hrest : get? rest name = some v := by simpa [get?, hk] using h
      have hlt : k < name := List.rel_of_pairwise_cons hr (mem_of_get? hrest)
      have hnot : ¬ name < k := String.lt_asymm hlt
      simp only [insert, replace, hk, hnot, if_false, ih hr.of_cons hrest]

end Record

namespace Bindings

open Value (read? Blocked Assigned)

variable {target : Value} {fields : List (String × Value)}

/-! ### Below a value -/

/-- Puts a value at a path below `target`, the value of `name`, in place. -/
def writeInto (whole : String) (v : Value) :
    (name : String) → Value → List String → Option EvalError × Value
  | name, target, [] =>
    match fields? target with
    | some fields => (none, .object fields)
    | none => (some (.invalidMember whole name), target)
  | name, target, next :: path =>
    match fields? target with
    | none => (some (.invalidMember whole name), target)
    | some fields =>
      match path with
      | [] => (none, .object (Record.insert fields next v))
      | _ :: _ =>
        let (fields, child) := Record.entry fields next (.object [])
        let (error, below) := writeInto whole v next child path
        (error, .object (Record.replace fields next below))

/-- Assigns a value at a dotted path in place: the failure, if there is one, and the variables as
they are then. -/
def writePath (b : Bindings) (path : String) (v : Value) : Option EvalError × Bindings :=
  match (segments [] path.toList).find? isReserved with
  | some name => (some (.reservedName name), b)
  | none =>
    match segments [] path.toList with
    | [] => (none, b)
    | [name] => (none, Record.insert b name v)
    | name :: rest =>
      let (b, root) := Record.entry b name (.object [])
      let (error, below) := writeInto path v name root rest
      (error, Record.replace b name below)

/-- Whether the objects on a path hold their names in ascending order. -/
def Ordered (target : Value) (path : List String) : Prop :=
  ∀ front fields, front <+: path → Value.read? front target = some (.object fields) →
    Record.Ascending fields

namespace Ordered

variable {next : String} {path : List String}

theorem ascending (hordered : Ordered target path) (h : fields? target = some fields) :
    Record.Ascending fields := by
  cases target with
  | undefined => cases h; exact List.Pairwise.nil
  | object kept => cases h; exact hordered [] _ List.nil_prefix rfl
  | _ => cases h

theorem child (hordered : Ordered target (next :: path)) (h : fields? target = some fields) :
    Ordered (child fields next) path := by
  intro front kept hfront hkept
  rw [Bindings.child] at hkept
  cases hmember : Record.get? fields next with
  | none =>
    rw [hmember] at hkept
    cases front with
    | nil => cases hkept; exact List.Pairwise.nil
    | cons n front => cases hkept
  | some member =>
    refine hordered (next :: front) kept (List.prefix_cons_inj next |>.mpr hfront) ?_
    rw [read?_cons h, hmember]
    rwa [hmember] at hkept

end Ordered

section Below

variable (whole : String) (v : Value) (name next second : String) (rest : List String)

theorem writeInto_of_blocked (path : List String) (h : fields? target = none) :
    writeInto whole v name target path = (some (.invalidMember whole name), target) := by
  cases path <;> rw [writeInto, h]

theorem writeInto_last (h : fields? target = some fields) :
    writeInto whole v name target [next] = (none, .object (Record.insert fields next v)) := by
  rw [writeInto, h]

theorem entry_child (fields : Record Value) :
    (Record.entry fields next (.object [])).2 = child fields next := by
  rw [Record.entry, child]
  cases Record.get? fields next <;> rfl

theorem writeInto_cons (h : fields? target = some fields) :
    writeInto whole v name target (next :: second :: rest) =
      (writeInto whole v next (child fields next) (second :: rest)).map id fun below =>
        .object (Record.replace (Record.entry fields next (.object [])).1 next below) := by
  rw [writeInto, h, ← entry_child]
  rfl

end Below

theorem assignInto_fresh (whole : String) (v : Value) (name next : String) (rest : List String)
    (e : EvalError) : assignInto whole v name (.object []) (next :: rest) ≠ .error e := by
  intro herror
  obtain ⟨front, back, -, -, ⟨x, hx, -, hobject⟩, -⟩ :=
    (assignInto_eq_error whole v e name _ next rest).mp herror
  cases front with
  | nil => exact hobject [] (Option.some.inj hx).symm
  | cons n front => cases hx

/-- A refused assignment in place changes nothing: on the way to a value that can have no members
every object is there already. -/
theorem writeInto_of_error (whole : String) (v : Value) (e : EvalError) (name : String)
    (target : Value) (next : String) (rest : List String)
    (herror : assignInto whole v name target (next :: rest) = .error e) :
    writeInto whole v name target (next :: rest) = (some e, target) := by
  induction name, target, next, rest using path_induction with
  | blocked name target next rest h =>
    rw [assignInto_of_blocked whole v name _ h] at herror
    cases herror
    exact writeInto_of_blocked whole v name _ h
  | last name target fields next h =>
    rw [assignInto_last whole v name next h] at herror
    cases herror
  | below name target fields next second rest h ih =>
    rw [assignInto_cons_eq_error whole v name next second rest h] at herror
    rw [writeInto_cons whole v name next second rest h, ih herror]
    cases hmember : Record.get? fields next with
    | none =>
      -- a new object would be put here, and nothing below it can refuse
      rw [child, hmember] at herror
      exact absurd herror (assignInto_fresh whole v next second rest e)
    | some member =>
      have htarget : target = .object fields := by
        cases target <;> simp_all [fields?]
      simp [child, hmember, Record.entry, Record.replace_self hmember, htarget]

/-- Where the objects on the way hold their names in ascending order, an assignment in place comes
to the same value. -/
theorem writeInto_of_ok (whole : String) (v : Value) (name : String) (target : Value)
    (next : String) (rest : List String) (after : Value)
    (hordered : Ordered target (next :: rest))
    (hok : assignInto whole v name target (next :: rest) = .ok after) :
    writeInto whole v name target (next :: rest) = (none, after) := by
  induction name, target, next, rest using path_induction generalizing after with
  | blocked name target next rest h =>
    rw [assignInto_of_blocked whole v name _ h] at hok
    cases hok
  | last name target fields next h =>
    rw [assignInto_last whole v name next h] at hok
    cases hok
    exact writeInto_last whole v name next h
  | below name target fields next second rest h ih =>
    obtain ⟨below, hbelow, rfl⟩ :=
      (assignInto_cons_eq_ok whole v name next second rest h).mp hok
    rw [writeInto_cons whole v name next second rest h, ih below (hordered.child h) hbelow]
    -- replacing where the name stands is inserting only in ascending order
    have hplace : Record.replace (Record.entry fields next (.object [])).1 next below =
        Record.insert fields next below := by
      rw [Record.entry]
      cases hmember : Record.get? fields next with
      | none => exact Record.replace_insert hmember _ below
      | some member => exact Record.replace_eq_insert (hordered.ascending h) hmember below
    simp [hplace]

/-! ### Variables -/

theorem writePath_eq (b : Bindings) (path : String) (v : Value)
    (h : (names path).find? isReserved = none) :
    (writePath b path v).map id Value.object =
      writeInto path v "" (.object b) (names path) := by
  rw [writePath, segments_eq_names, h]
  match hpath : names path with
  | [] => exact absurd hpath (names_ne_nil path)
  | [name] => rfl
  | name :: next :: rest =>
    rw [writeInto_cons path v "" name next rest rfl, ← entry_child]
    rfl

variable {b : Bindings} {path : String} {e : EvalError}

theorem writePath_of_error {v : Value} (herror : assignPath b path v = .error e) :
    writePath b path v = (some e, b) := by
  cases h : (names path).find? isReserved with
  | some name =>
    rw [assignPath_of_reserved b v h] at herror
    cases herror
    simp only [writePath, segments_eq_names, h]
  | none =>
    obtain ⟨next, rest, hpath, hassign⟩ := assignPath_of_free b v h
    have hwrite := writePath_eq b path v h
    rw [herror] at hassign
    rw [hpath, writeInto_of_error path v e "" _ next rest hassign.symm] at hwrite
    obtain ⟨herror', hscope⟩ := Prod.mk.inj hwrite
    exact Prod.ext herror' (Value.object.inj hscope)

theorem writePath_of_ok {v : Value} {c : Bindings}
    (hordered : Ordered (.object b) (names path)) (hok : assignPath b path v = .ok c) :
    writePath b path v = (none, c) := by
  cases h : (names path).find? isReserved with
  | some name =>
    rw [assignPath_of_reserved b v h] at hok
    cases hok
  | none =>
    obtain ⟨next, rest, hpath, hassign⟩ := assignPath_of_free b v h
    have hwrite := writePath_eq b path v h
    rw [hok] at hassign
    rw [hpath] at hordered hwrite
    rw [writeInto_of_ok path v "" _ next rest _ hordered hassign.symm] at hwrite
    obtain ⟨herror, hscope⟩ := Prod.mk.inj hwrite
    exact Prod.ext herror (Value.object.inj hscope)

/-- An assignment at a path is refused exactly at a reserved name and, if there is none, at a value
on the way that can have no members. A refused assignment leaves the variables as they were, also
in place; one that succeeds leads to the value and keeps what is beside the path. -/
theorem assignPath_atomic (b : Bindings) (path : String) (v : Value) :
    (∀ e, assignPath b path v = .error e ↔ Refused b path e) ∧
    (∀ e, assignPath b path v = .error e →
      writePath b path v = (some e, b) ∧
        ∀ w : World, w.scope = b → Eval.assign path v w = (.error (.error e), w)) ∧
    ∀ c, assignPath b path v = .ok c →
      Assigned (.object b) (names path) v (.object c) ∧
        (Ordered (.object b) (names path) → writePath b path v = (none, c)) := by
  refine ⟨fun e => assignPath_eq_error v, fun e herror => ⟨writePath_of_error herror, ?_⟩,
    fun c hok =>
      ⟨assigned_of_ok hok, fun hordered => writePath_of_ok hordered hok⟩⟩
  intro w hw
  change (Eval.ofExcept (assignPath w.scope path v) >>= Eval.setScope) w = _
  rw [hw, herror]
  rfl

example : assignPath [("o", .object [("n", .null)])] "o.n.b" .null =
    .error (.invalidMember "o.n.b" "n") := rfl

end Bindings

end Formula

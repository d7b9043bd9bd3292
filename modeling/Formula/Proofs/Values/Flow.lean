import Formula.Proofs.Outcome
import Formula.Proofs.Values.Guard

/-!
# Values out of values

The results of operations, look-ups, assignments and plans are made of what went into them, so
they obey a guard that their inputs obey.
-/

namespace Formula

variable {g : Guard}

/-! ### Operations -/

namespace Operation

section

variable {P : Value → Prop} (hP : Value.Hereditary P)

include hP

theorem arg_hereditary {args : List Value} (h : ∀ v ∈ args, P v) (i : Nat) : P (arg args i) := by
  unfold arg
  cases hi : args[i]? with
  | none => exact hP.undefined
  | some v => exact h v (List.mem_of_getElem? hi)

theorem onNumber_hereditary (f : Float → Float) (args : List Value) : P (onNumber f args) := by
  unfold onNumber
  split
  · exact hP.undefined
  · exact hP.number _

theorem onNumbers_hereditary (f : Float → Float → Float) (args : List Value) :
    P (onNumbers f args) := by
  unfold onNumbers
  split
  · exact hP.undefined
  · exact hP.undefined
  · exact hP.number _

theorem ordered_hereditary (orders : List Ordering) (args : List Value) :
    P (ordered orders args) := by
  unfold ordered
  split
  · exact hP.bool _
  · exact hP.bool _

theorem addition_hereditary (args : List Value) : P (addition args) := by
  unfold addition
  split
  · exact hP.undefined
  · exact hP.undefined
  · split
    · exact hP.string _
    · exact hP.number _
  · exact hP.number _

theorem concatenation_hereditary {args : List Value} (h : ∀ v ∈ args, P v) :
    P (concatenation args) := by
  unfold concatenation
  split
  · next as bs ha hb =>
    have has : P (.array as) := ha ▸ arg_hereditary hP h 0
    have hbs : P (.array bs) := hb ▸ arg_hereditary hP h 1
    refine hP.array fun v hv => ?_
    rcases List.mem_append.mp hv with hv | hv
    · exact hP.items has v hv
    · exact hP.items hbs v hv
  · exact hP.string _
  · exact hP.undefined

theorem itemAt_hereditary {args : List Value} (h : ∀ v ∈ args, P v) : P (itemAt args) := by
  unfold itemAt
  dsimp only
  split
  · next items hi =>
    have hitems : P (.array items) := hi ▸ arg_hereditary hP h 0
    split
    · exact hP.undefined
    · cases hv : items[(Number.toInt32 (arg args 1).toNumber).toNat]? with
      | none => exact hP.undefined
      | some v => exact hP.items hitems v (List.mem_of_getElem? hv)
  · split
    · exact hP.undefined
    · split
      · exact hP.string _
      · exact hP.undefined
  · next fields hf =>
    have hfields : P (.object fields) := hf ▸ arg_hereditary hP h 0
    cases hv : Record.get? fields (toString (Number.toInt32 (arg args 1).toNumber)) with
    | none => exact hP.undefined
    | some v => exact hP.fields hfields _ (Record.mem_of_get? hv)
  · exact hP.undefined

theorem coalescence_hereditary {args : List Value} (h : ∀ v ∈ args, P v) :
    P (coalescence args) := by
  unfold coalescence
  split
  · exact arg_hereditary hP h 1
  · exact arg_hereditary hP h 1
  · split
    · exact arg_hereditary hP h 1
    · exact hP.number _
  · split
    · exact arg_hereditary hP h 1
    · exact arg_hereditary hP h 0

theorem lengthOf_hereditary (args : List Value) : P (lengthOf args) := by
  unfold lengthOf
  split
  · exact hP.undefined
  · exact hP.number _
  · exact hP.number _

theorem extreme_hereditary (start : Float) (better : Float → Float → Bool) (args : List Value) :
    P (extreme start better args) := by
  unfold extreme
  dsimp only
  split
  · exact hP.undefined
  · split
    · exact hP.number _
    · exact hP.number _

theorem vectorLength_hereditary (args : List Value) : P (vectorLength args) := by
  unfold vectorLength
  split
  · exact hP.undefined
  · exact hP.number _

theorem rounding_hereditary (args : List Value) : P (rounding args) := by
  unfold rounding
  split
  · exact hP.undefined
  · exact hP.number _
  · split
    · exact hP.number _
    · exact hP.number _

theorem choose_hereditary {args : List Value} (h : ∀ v ∈ args, P v) :
    P (if (arg args 0).truthy then arg args 1 else arg args 2) := by
  split
  · exact arg_hereditary hP h 1
  · exact arg_hereditary hP h 2

theorem conversion_hereditary (args : List Value) :
    Meets P (fun e => ¬e.Malformed) (conversion args) := by
  unfold conversion
  split
  · exact hP.undefined
  · exact hP.undefined
  · split
    · exact hP.bool _
    · split
      · exact hP.number _
      · split
        · exact hP.number _
        · exact id
  · exact id

theorem firstIndex_hereditary (args : List Value) :
    Meets P (fun e => ¬e.Malformed) (firstIndex args) := by
  unfold firstIndex
  split
  · exact hP.undefined
  · split
    · exact hP.number _
    · exact hP.number _
  · split
    · exact hP.number _
    · exact hP.number _
  · exact id

theorem joined_hereditary (args : List Value) :
    Meets P (fun e => ¬e.Malformed) (joined args) := by
  unfold joined
  split
  · exact hP.undefined
  · exact hP.undefined
  · exact hP.string _
  · exact id

theorem total_hereditary (args : List Value) :
    Meets P (fun e => ¬e.Malformed) (total args) := by
  unfold total
  split
  · exact hP.undefined
  · split
    · exact hP.undefined
    · exact hP.number _
  · exact id

/-- The result of an operation is a new value or part of an argument. -/
theorem apply_hereditary (op : Operation) {args : List Value} (h : ∀ v ∈ args, P v) :
    Meets P (fun e => ¬e.Malformed) (op.apply args) := by
  cases op with
  | convert => exact conversion_hereditary hP args
  | indexOf => exact firstIndex_hereditary hP args
  | join => exact joined_hereditary hP args
  | sum => exact total_hereditary hP args
  | length => exact lengthOf_hereditary hP args
  | add => exact addition_hereditary hP args
  | concatenate => exact concatenation_hereditary hP h
  | index => exact itemAt_hereditary hP h
  | coalesce => exact coalescence_hereditary hP h
  | choose => exact choose_hereditary hP h
  | hypot => exact vectorLength_hereditary hP args
  | maximum | minimum => exact extreme_hereditary hP _ _ args
  | roundTo => exact rounding_hereditary hP args
  | greater | less | atLeast | atMost => exact ordered_hereditary hP _ args
  | subtract | multiply | divide | remainder | power | atan2 => exact onNumbers_hereditary hP _ args
  | negation | equal | unequal | conjunction | disjunction | membership => exact hP.bool _
  | _ => exact onNumber_hereditary hP _ args

end

theorem arg_obeys {args : List Value} (h : ∀ v ∈ args, v.Obeys g) (i : Nat) :
    (arg args i).Obeys g := arg_hereditary (Value.Obeys.hereditary g) h i

theorem apply_meets (op : Operation) {args : List Value} (h : ∀ v ∈ args, v.Obeys g) :
    Meets (Value.Obeys g) (fun e => ¬e.Malformed) (op.apply args) :=
  apply_hereditary (Value.Obeys.hereditary g) op h

end Operation

/-! ### Variables -/

namespace Bindings

section

variable {P : Value → Prop} (hP : Value.Fieldwise P)

include hP

theorem fields?_fieldwise {v : Value} {fields : List (String × Value)} (hv : P v)
    (h : fields? v = some fields) : P (.object fields) := by
  cases v with
  | undefined =>
    cases h
    exact hP.empty
  | object fs =>
    cases h
    exact hv
  | _ => cases h

theorem child_fieldwise {b : Bindings} (hb : ∀ p ∈ b, P p.2) (name : String) :
    P ((Record.get? b name).getD (.object [])) := by
  cases h : Record.get? b name with
  | none => exact hP.empty
  | some v => exact hb _ (Record.mem_of_get? h)

theorem assignInto_fieldwise (whole : String) {v : Value} (hv : P v) (path : List String)
    (hpath : ∀ name ∈ path, isReserved name = false) :
    ∀ (name : String) {target : Value}, P target →
      Meets P (fun e => ¬e.Malformed) (assignInto whole v name target path) := by
  induction path with
  | nil =>
    intro name target ht
    cases hf : fields? target with
    | none =>
      simp only [assignInto, hf]
      exact id
    | some fields =>
      simp only [assignInto, hf]
      exact fields?_fieldwise hP ht hf
  | cons next path ih =>
    intro name target ht
    obtain ⟨hnext, hpath⟩ := List.forall_mem_cons.mp hpath
    cases hf : fields? target with
    | none =>
      simp only [assignInto, hf]
      exact id
    | some fields =>
      have hobject : P (.object fields) := fields?_fieldwise hP ht hf
      cases path with
      | nil =>
        simp only [assignInto, hf]
        exact hP.insert hobject hnext hv
      | cons _ _ =>
        simp only [assignInto, hf]
        have hchild := child_fieldwise hP (hP.fields hobject) next
        exact Meets.bind (ih hpath next hchild) fun child hc => hP.insert hobject hnext hc

/-- An assignment puts the value at one place and keeps what stands elsewhere. -/
theorem assignPath_fieldwise {b : Bindings} (hb : ∀ p ∈ b, P p.2) (path : String) {v : Value}
    (hv : P v) :
    Meets (fun b => ∀ p ∈ b, P p.2) (fun e => ¬e.Malformed) (assignPath b path v) := by
  unfold assignPath assignSegments
  split
  · exact id
  · next hfree =>
    have hfree : ∀ name ∈ segments [] path.toList, isReserved name = false := by
      simpa using List.find?_eq_none.mp hfree
    split
    · exact hb
    · exact Record.forall_insert hb _ hv
    · next name rest _ hsegments =>
      rw [hsegments] at hfree
      have hroot := assignInto_fieldwise hP path hv rest (List.forall_mem_cons.mp hfree).2 name
        (child_fieldwise hP hb name)
      exact Meets.bind hroot fun root hr => Record.forall_insert hb name hr

end

theorem assignPath_meets {b : Bindings} (hb : Bindings.Obeys g b) (path : String) {v : Value}
    (hv : v.Obeys g) :
    Meets (Bindings.Obeys g) (fun e => ¬e.Malformed) (assignPath b path v) :=
  assignPath_fieldwise (Value.Obeys.partwise g).fieldwise hb path hv

end Bindings

theorem Language.Obeys.resolve {lang : Language Value} (h : lang.Obeys g) {name : String}
    {v : Value} (hr : lang.resolve? name = some (.value v)) : v.Obeys g := by
  cases h with
  | mk hl => exact hl name v hr

namespace Machine

/-- What a name stands for is in scope, in a table or given by the resolver. -/
theorem lookup_made {P : Value → Prop} {lang : Language Value} {scope : Bindings} {name : String}
    (hresolve : ∀ name v, lang.resolve? name = some (.value v) → P v)
    (hscope : ∀ p ∈ scope, P p.2)
    (hn : ∀ f ∈ (Instruction.variable name).natives lang, P (.function (.native f))) :
    Meets P (fun e => ¬e.Malformed) (lookup lang scope name) := by
  unfold lookup
  split
  · exact id
  · split
    · next f hf => exact hn f (by simp [Instruction.natives, hf])
    · split
      · next f hf =>
        have hu : lang.unaryOp? name = some f := by
          split at hf
          · exact hf
          · cases hf
        exact hn f (by simp [Instruction.natives, hu])
      · split
        · next v hv => exact hscope _ (Record.mem_of_get? hv)
        · split
          · split
            · next v hv => exact hscope _ (Record.mem_of_get? hv)
            · exact id
          · next v hv => exact hresolve _ v hv
          · exact id

theorem lookup_meets {lang : Language Value} {scope : Bindings} {name : String}
    (hlang : lang.Obeys g) (hscope : Bindings.Obeys g scope)
    (hn : ∀ f ∈ (Instruction.variable name).natives lang, g.native f) :
    Meets (Value.Obeys g) (fun e => ¬e.Malformed) (lookup lang scope name) :=
  lookup_made (fun _ _ => hlang.resolve) hscope fun f hf => .function (.native (hn f hf))

/-- The variables of a call are captured, the function itself or arguments. -/
theorem definedScope_hereditary {P : Value → Prop} (hP : Value.Hereditary P) {c : Closure Value}
    (hcaptured : ∀ p ∈ c.captured, P p.2) (hself : P (.function (.defined c))) {args : List Value}
    (hargs : ∀ v ∈ args, P v) : ∀ p ∈ definedScope (.defined c) c args, P p.2 := by
  refine Record.forall_update (Record.forall_insert hcaptured c.name hself) fun p hp => ?_
  obtain ⟨q, _, rfl⟩ := List.mem_map.mp hp
  exact Operation.arg_hereditary hP hargs q.2

end Machine

end Formula

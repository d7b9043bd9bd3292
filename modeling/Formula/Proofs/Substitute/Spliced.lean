import Formula.Proofs.Machine.Lifted
import Formula.Proofs.Scope.Agreeing
import Formula.Proofs.Substitute.Decided

/-!
# Functions with parts exchanged

Where a program with exchanged parts defines functions, the functions have exchanged parts as well.
So two runs are compared that differ in the functions they make: the same function has related
programs in them, and captured related variables. A function that a program of the two defines binds
names, its own and its parameters; the variables of all other names are, wherever its program runs,
those that were in scope to begin with, which may differ in the two runs.
-/

namespace Formula

namespace Machine

/-- What two runs start from: a language, the variables in scope on either side, and the names that
functions bind. -/
structure Splice where
  hosts : Hosts
  lang : Language Value
  bound : String → Prop
  left : Bindings
  right : Bindings

/-- How two programs are related: they are one program, or have exchanged parts. -/
inductive Splice.Mode where
  | same
  | parts

namespace Splice

variable (S : Splice)

/-- The variables that a name may read are bound, or the same on both sides. -/
def Reads (name : String) : Prop :=
  ∀ other, other = name ∨ S.lang.resolve? name = some (.alias other) →
    S.bound other ∨ Record.get? S.left other = Record.get? S.right other

/-- Programs that are the same but for parts that lead to the same value, each wherever its own
variables are in scope; they assign nothing and bind given names. -/
inductive Spliced : Program Value → Program Value → Prop
  | nil : Spliced [] []
  | part {v : Value} {part part' rest rest' : Program Value} :
      (∀ b, S.left.Agrees (¬S.bound ·) b → Leads S.hosts S.lang b part [] [.value v]) →
      (∀ b, S.right.Agrees (¬S.bound ·) b → Leads S.hosts S.lang b part' [] [.value v]) →
      .endStatement ∉ part → .endStatement ∉ part' →
      Spliced rest rest' → Spliced (part ++ rest) (part' ++ rest')
  | group {body body' rest rest' : Program Value} :
      Spliced body body' → Spliced rest rest' →
      Spliced (.group body :: rest) (.group body' :: rest')
  | same {i : Instruction Value} {rest rest' : Program Value} :
      i.isGroup = false → i.writes = false → (∀ name, i = .variable name → S.Reads name) →
      Spliced rest rest' → Spliced (i :: rest) (i :: rest')
  | define {name : String} {params : List String} {body body' rest rest' : Program Value} :
      S.bound name → (∀ p ∈ params, S.bound p) → Spliced body body' → Spliced rest rest' →
      Spliced (.target name :: (params.map .target ++ .group body :: .define params.length :: rest))
        (.target name :: (params.map .target ++ .group body' :: .define params.length :: rest'))

/-- The names whose variables need not be those of the start. -/
def Binds : Mode → String → Prop
  | .same, _ => True
  | .parts, name => S.bound name

inductive Codes : Mode → Language Value → Program Value → Program Value → Prop
  | same (lang : Language Value) (code : Program Value) : Codes .same lang code code
  | parts {code code' : Program Value} : S.Spliced code code' → Codes .parts S.lang code code'

end Splice

end Machine

open Machine

mutual

/-- The same native function, or the same function with related programs and captured variables. -/
inductive Function.Spliced (S : Splice) : Function Value → Function Value → Prop
  | native (f : Native) : Function.Spliced S (.native f) (.native f)
  | defined {c c' : Closure Value} :
      Closure.Spliced S c c' → Function.Spliced S (.defined c) (.defined c')
  | prepared {c c' : Closure Value} :
      Closure.Spliced S c c' → Function.Spliced S (.prepared c) (.prepared c')

inductive Closure.Spliced (S : Splice) : Closure Value → Closure Value → Prop
  | mk {m : Splice.Mode} {id : Nat} {name : String} {params : List String}
      {body body' : Program Value} {captured captured' : Bindings} {lang : Language Value} :
      S.Codes m lang body body' → S.Binds m name → (∀ p ∈ params, S.Binds m p) →
      (∀ other, S.Binds m other → Option.Rel (Value.Lifted (Function.Spliced S))
        (Record.get? captured other) (Record.get? captured' other)) →
      S.left.Agrees (¬S.Binds m ·) captured → S.right.Agrees (¬S.Binds m ·) captured' →
      Closure.Spliced S ⟨id, name, params, body, captured, lang⟩
        ⟨id, name, params, body', captured', lang⟩

end

namespace Machine.Splice

variable (S : Splice)

/-- Values that are the same but for functions with exchanged parts. -/
abbrev Like : Value → Value → Prop := Value.Lifted (Function.Spliced S)

abbrev Likes : List Value → List Value → Prop := Values.Lifted (Function.Spliced S)

/-- Variables in scope where programs of a mode run: those of bound names are alike, and all others
are those of the start. -/
structure Scopes (m : Mode) (b b' : Bindings) : Prop where
  bound : ∀ name, S.Binds m name → Option.Rel S.Like (Record.get? b name) (Record.get? b' name)
  left : S.left.Agrees (¬S.Binds m ·) b
  right : S.right.Agrees (¬S.Binds m ·) b'

abbrev Stacks (m : Mode) (lang : Language Value) : List Operand → List Operand → Prop :=
  Stack.Lifted (Function.Spliced S) (S.Codes m lang)

/-- What remains to be done in two runs; only one program on both sides assigns. -/
inductive Frames (m : Mode) (lang : Language Value) : Frame → Frame → Prop
  | fill (d : Nat) {stack stack' : List Operand} {code code' : Program Value} :
      S.Stacks m lang stack stack' → S.Codes m lang code code' →
      Frames m lang (.fill d stack code) (.fill d stack' code')
  | push {stack stack' : List Operand} {code code' : Program Value} :
      S.Stacks m lang stack stack' → S.Codes m lang code code' →
      Frames m lang (.push stack code) (.push stack' code')
  | truth : Frames m lang .truth .truth
  | assign (path : String) : m = .same → Frames m lang (.assign path) (.assign path)

inductive Deferreds : Deferred → Deferred → Prop
  | settled {r r' : Except EvalError Value} :
      Alike S.Like r r' → Deferreds (.settled r) (.settled r')
  | promised {p p' : Promise} :
      p.Lifted (Function.Spliced S) p' → Deferreds (.promised p) (.promised p')
  | suspended {m : Mode} {b b' : Bindings} {lang : Language Value} {frames frames' : List Frame}
      (on : Nat) : S.Scopes m b b' → List.Forall₂ (S.Frames m lang) frames frames' →
      Deferreds (.suspended b lang frames on) (.suspended b' lang frames' on)

/-- The worlds of two runs. -/
structure Worlds (m : Mode) (w w' : World) : Prop where
  scope : S.Scopes m w.scope w'.scope
  log : S.Likes w.log w'.log
  deferreds : List.Forall₂ S.Deferreds w.deferreds.toList w'.deferreds.toList
  nextId : w.nextId = w'.nextId
  seed : w.seed = w'.seed

inductive Runs (m : Mode) (lang : Language Value) : Progress → Progress → Prop
  | done {v v' : Value} : S.Like v v' → Runs m lang (.done v) (.done v')
  | waiting {frames frames' : List Frame} (on : Nat) :
      List.Forall₂ (S.Frames m lang) frames frames' →
      Runs m lang (.waiting frames on) (.waiting frames' on)

inductive Steps (m : Mode) (lang : Language Value) : Step → Step → Prop
  | next {stack stack' : List Operand} :
      S.Stacks m lang stack stack' → Steps m lang (.next stack) (.next stack')
  | await {frames frames' : List Frame} (on : Nat) {stack stack' : List Operand} :
      List.Forall₂ (S.Frames m lang) frames frames' → S.Stacks m lang stack stack' →
      Steps m lang (.await frames on stack) (.await frames' on stack')

inductive Forces (m : Mode) (lang : Language Value) : Forced → Forced → Prop
  | ready {stack stack' : List Operand} :
      S.Stacks m lang stack stack' → Forces m lang (.ready stack) (.ready stack')
  | suspended (d : Nat) {frames frames' : List Frame} (on : Nat) {stack stack' : List Operand} :
      List.Forall₂ (S.Frames m lang) frames frames' → S.Stacks m lang stack stack' →
      Forces m lang (.suspended d frames on stack) (.suspended d frames' on stack')

end Machine.Splice

/-- Variables that agree with others still do if one is set that is not compared. -/
theorem Bindings.Agrees.insert_other {names : String → Prop} {b b' : Bindings}
    (h : Bindings.Agrees names b b') {name : String} (hname : ¬names name) (v : Value) :
    Bindings.Agrees names b (Record.insert b' name v) := by
  intro other hother
  have hne : other ≠ name := by
    rintro rfl
    exact hname hother
  rw [Record.get?_insert_of_ne _ _ hne]
  exact h other hother

/-! ### Functions -/

variable {S : Splice}

theorem Closure.Spliced.refl {c : Closure Value}
    (hc : Fields.Lifted (Function.Spliced S) c.captured c.captured) : Closure.Spliced S c c := by
  obtain ⟨id, name, params, body, captured, lang⟩ := c
  exact .mk (.same lang body) trivial (fun _ _ => trivial) (fun other _ => hc.get? other)
    (fun _ h => (h trivial).elim) fun _ h => (h trivial).elim

theorem Function.spliced_reflexive (S : Splice) : Function.Reflexive (Function.Spliced S) where
  native := .native
  defined _ hc := .defined (.refl hc)
  prepared _ hc := .prepared (.refl hc)

/-- Functions with exchanged parts have the same name and the same identity. -/
theorem Function.spliced_congruent (S : Splice) : Function.Congruent (Function.Spliced S) where
  native := .native
  name hf := by
    cases hf with
    | native f => rfl
    | defined hc =>
      cases hc
      rfl
    | prepared hc => rfl
  same hf hg := by
    cases hf with
    | native f =>
      cases hg with
      | _ => rfl
    | defined hc | prepared hc =>
      cases hc
      cases hg with
      | native g => rfl
      | defined hd | prepared hd =>
        cases hd
        rfl

namespace Machine.Splice

theorem like_refl (v : Value) : S.Like v v := (Function.spliced_reflexive S).value v

theorem likes_refl (vs : List Value) : S.Likes vs vs := (Function.spliced_reflexive S).items vs

/-! ### Variables -/

namespace Scopes

variable {m : Mode} {b b' : Bindings}

/-- The same variables in scope are those of one program. -/
theorem refl (b : Bindings) : S.Scopes .same b b where
  bound name _ := ((Function.spliced_reflexive S).fields b).get? name
  left _ h := (h trivial).elim
  right _ h := (h trivial).elim

/-- What both start from, if the names that functions bind are the same there. -/
theorem start (h : ∀ name, S.bound name → Record.get? S.left name = Record.get? S.right name) :
    S.Scopes .parts S.left S.right where
  bound name hname := by
    rw [h name hname]
    exact (Scopes.refl S.right).bound name trivial
  left _ _ := rfl
  right _ _ := rfl

/-- A variable is alike, if its name is bound or it is the same at the start. -/
theorem get? (h : S.Scopes m b b') {name : String}
    (hname : S.Binds m name ∨ Record.get? S.left name = Record.get? S.right name) :
    Option.Rel S.Like (Record.get? b name) (Record.get? b' name) := by
  by_cases hbound : S.Binds m name
  · exact h.bound name hbound
  · rw [h.left name hbound, h.right name hbound, hname.resolve_left hbound]
    exact (Scopes.refl S.right).bound name trivial

theorem insert (h : S.Scopes m b b') {name : String} (hname : S.Binds m name) {v v' : Value}
    (hv : S.Like v v') : S.Scopes m (Record.insert b name v) (Record.insert b' name v') where
  bound other hother := by
    by_cases heq : other = name
    · subst heq
      rw [Record.get?_insert_self, Record.get?_insert_self]
      exact .some hv
    · rw [Record.get?_insert_of_ne _ _ heq, Record.get?_insert_of_ne _ _ heq]
      exact h.bound other hother
  left := h.left.insert_other (fun hother => hother hname) v
  right := h.right.insert_other (fun hother => hother hname) v'

theorem update (h : S.Scopes m b b') {pairs pairs' : List (String × Value)}
    (hpairs : Fields.Lifted (Function.Spliced S) pairs pairs')
    (hnames : ∀ p ∈ pairs, S.Binds m p.1) :
    S.Scopes m (Record.update b pairs) (Record.update b' pairs') := by
  induction hpairs generalizing b b' with
  | nil => exact h
  | cons hp _ ih =>
    obtain ⟨hname, hrest⟩ := List.forall_mem_cons.mp hnames
    cases hp with
    | mk name hv => exact ih (h.insert hname hv) hrest

end Scopes

/-- The variables of a call of a defined function. -/
theorem definedScope_scopes {m : Mode} {f f' : Function Value} {id : Nat} {name : String}
    {params : List String} {body body' : Program Value} {captured captured' : Bindings}
    {lang : Language Value} {args args' : List Value} (h : S.Scopes m captured captured')
    (hname : S.Binds m name) (hparams : ∀ p ∈ params, S.Binds m p) (hf : Function.Spliced S f f')
    (hargs : S.Likes args args') :
    S.Scopes m (definedScope f ⟨id, name, params, body, captured, lang⟩ args)
      (definedScope f' ⟨id, name, params, body', captured', lang⟩ args') := by
  refine (h.insert hname (.function hf)).update ?_ fun p hp => ?_
  · refine List.forall₂_map_left_iff.mpr (List.forall₂_map_right_iff.mpr ?_)
    exact List.forall₂_same.mpr fun p _ => .mk p.1 (Operation.arg_lifted hargs p.2)
  · obtain ⟨q, hq, rfl⟩ := List.mem_map.mp hp
    exact hparams q.1 (List.fst_mem_of_mem_zipIdx hq)

theorem zip_lifted (params : List String) {args args' : List Value} (hargs : S.Likes args args') :
    Fields.Lifted (Function.Spliced S) (params.zip args) (params.zip args') := by
  induction hargs generalizing params with
  | nil =>
    rw [List.zip_nil_right]
    exact .nil
  | cons hv _ ih =>
    cases params with
    | nil => exact .nil
    | cons name params => exact .cons (.mk name hv) (ih params)

/-- Where the variables are alike, a name that may be read on both sides stands for like values. -/
theorem lookup_like {m : Mode} {lang : Language Value} {b b' : Bindings} (h : S.Scopes m b b')
    {name : String} (hname : ∀ other, other = name ∨ lang.resolve? name = some (.alias other) →
      S.Binds m other ∨ Record.get? S.left other = Record.get? S.right other) :
    Alike S.Like (lookup lang b name) (lookup lang b' name) :=
  lookup_lifted (Function.spliced_reflexive S).refl fun other hother => h.get? (hname other hother)

end Machine.Splice

end Formula

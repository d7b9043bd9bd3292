import Formula.Proofs.Substitute.Runs
import Formula.Proofs.Substitute.Spliced

/-!
# Code with exchanged parts

Two runs that start from their own variables do the same, though the functions they define differ.
Parts lead to the same value on both sides; any other instruction is run on both sides, on stacks that
are alike, if the engines that nest programs and calls do the same.
-/

namespace Formula

open Waiting

namespace Bindings

variable {S : Machine.Splice}

/-- Where all variables are alike, assigning like values leaves them alike. -/
theorem assignPath_scopes {b b' : Bindings} (h : S.Scopes .same b b') (path : String) {v v' : Value}
    (hv : S.Like v v') : Alike (S.Scopes .same) (assignPath b path v) (assignPath b' path v') := by
  unfold assignPath assignSegments
  split
  · exact .error _
  · generalize segments [] path.toList = names
    cases names with
    | nil => exact .ok h
    | cons name rest =>
      cases rest with
      | nil => exact .ok (h.insert trivial hv)
      | cons next rest =>
        have hroot := rel_getD (h.bound name trivial) (.object .nil)
        exact (assignInto_lifted path hv (next :: rest) name hroot).bind fun _ _ hafter =>
          .ok (h.insert trivial hafter)

end Bindings

namespace Machine.Splice

open Eval

variable {S : Splice} {m : Mode}

/-! ### The state -/

namespace Worlds

variable {w w' : World}

/-- A scope of its own is entered and left. -/
theorem rescope (hw : S.Worlds m w w') {m' : Mode} {b b' : Bindings} (hb : S.Scopes m' b b') :
    S.Worlds m' { w with scope := b } { w' with scope := b' } :=
  ⟨hb, hw.log, hw.deferreds, hw.nextId, hw.seed⟩

theorem reseed (hw : S.Worlds m w w') (seed : UInt64) :
    S.Worlds m { w with seed } { w' with seed } :=
  ⟨hw.scope, hw.log, hw.deferreds, hw.nextId, rfl⟩

theorem size (hw : S.Worlds m w w') : w.deferreds.size = w'.deferreds.size := by
  have hlength := hw.deferreds.length_eq
  rwa [Array.length_toList, Array.length_toList] at hlength

theorem entry (hw : S.Worlds m w w') (id : Nat) :
    Option.Rel S.Deferreds w.deferreds[id]? w'.deferreds[id]? := by
  rw [← Array.getElem?_toList, ← Array.getElem?_toList]
  exact forall₂_getElem? hw.deferreds id

theorem record (hw : S.Worlds m w w') (id : Nat) {r r' : Except EvalError Value}
    (hr : Alike S.Like r r') : S.Worlds m (w.record id r) (w'.record id r') := by
  refine ⟨hw.scope, hw.log, ?_, hw.nextId, hw.seed⟩
  rw [World.record, World.record, Array.toList_setIfInBounds, Array.toList_setIfInBounds]
  exact forall₂_set hw.deferreds id (.settled hr)

end Worlds

variable (S m) in
/-- What the first evaluation comes to in one of two worlds, the others come to in the other. -/
abbrev Follows {α β : Type} (R : α → β → Prop) (x : Eval α) (y : Nat → Eval β) : Prop :=
  Mimics (S.Worlds m) R x y

theorem follows_scope : S.Follows m (S.Scopes m) scope fun _ => scope :=
  .once fun _ _ hw => ⟨.ok hw.scope, hw⟩

theorem follows_setScope {b b' : Bindings} (hb : S.Scopes m b b') :
    S.Follows m (fun _ _ => True) (setScope b) fun _ => setScope b' :=
  .once fun _ _ hw => ⟨.ok trivial, hw.rescope hb⟩

theorem follows_inScope {α β : Type} {R : α → β → Prop} {m' : Mode} {b b' : Bindings}
    (hb : S.Scopes m' b b') {x : Eval α} {y : Nat → Eval β} (h : S.Follows m' R x y) :
    S.Follows m R (inScope b x) fun n => inScope b' (y n) := by
  intro w w' o w₁ hw hx ho
  rcases hin : x { w with scope := b } with ⟨o₂, w₂⟩
  simp only [inScope, hin] at hx
  obtain ⟨rfl, rfl⟩ := Prod.mk.inj hx
  obtain ⟨o', w₂', hrel, hw₂, N, hN⟩ := h _ { w' with scope := b' } _ _ (hw.rescope hb) hin ho
  refine ⟨o', _, hrel, hw₂.rescope hw.scope, N, fun k hk => ?_⟩
  simp only [inScope, hN k hk]

theorem follows_note {entries entries' : List Value} (h : S.Likes entries entries') :
    S.Follows m (fun _ _ => True) (note entries) fun _ => note entries' :=
  .once fun _ _ hw =>
    ⟨.ok trivial, hw.scope, List.rel_append hw.log h, hw.deferreds, hw.nextId, hw.seed⟩

theorem follows_freshId : S.Follows m Eq freshId fun _ => freshId :=
  .once fun _ _ hw =>
    ⟨.ok hw.nextId, hw.scope, hw.log, hw.deferreds, congrArg (· + 1) hw.nextId, hw.seed⟩

theorem follows_random : S.Follows m Eq random fun _ => random := by
  refine .once fun w w' hw => ?_
  rw [random_eq, random_eq, hw.seed]
  exact ⟨.ok rfl, hw.reseed _⟩

theorem follows_defer {d d' : Deferred} (hd : S.Deferreds d d') :
    S.Follows m Eq (defer d) fun _ => defer d' := by
  refine .once fun w w' hw => ⟨.ok hw.size, hw.scope, hw.log, ?_, hw.nextId, hw.seed⟩
  show List.Forall₂ S.Deferreds (w.deferreds.push d).toList (w'.deferreds.push d').toList
  rw [Array.toList_push, Array.toList_push]
  exact List.rel_append hw.deferreds (.cons hd .nil)

theorem follows_assign (path : String) {v v' : Value} (hv : S.Like v v') :
    S.Follows .same (fun _ _ => True) (assign path v) fun _ => assign path v' :=
  follows_scope.bind fun _ _ hb =>
    (Mimics.ofExcept (Bindings.assignPath_scopes hb path hv)).bind fun _ _ hc => follows_setScope hc

/-! ### Instructions -/

variable {inner : Engine} {lang : Language Value} {depth n : Nat} {stack stack' : List Operand}

variable (S) in
/-- An engine that programs and functions are compared in. -/
structure Enters (inner : Engine) : Prop where
  enter : ∀ {m lang code code'} (depth : Nat), S.Codes m lang code code' →
    S.Follows m (S.Runs m lang) (inner.enter lang depth code)
      fun n => (engine S.hosts n).enter lang depth code'
  call : ∀ {m f f' args args'} (depth : Nat), Function.Spliced S f f' → S.Likes args args' →
    S.Follows m S.Like (inner.call depth f args) fun n => (engine S.hosts n).call depth f' args'

variable (S m lang) in
/-- An instruction that is run on both sides: the program it pushes, if any, is the same in both, and
the name it reads stands for like values. -/
structure Common (i : Instruction Value) : Prop where
  body : ∀ body, i = .group body → S.Codes m lang body body
  reads : ∀ {b b'}, S.Scopes m b b' → ∀ name, i = .variable name →
    Alike S.Like (lookup lang b name) (lookup lang b' name)
  writes : m = .parts → i.writes = false

theorem Common.lifted {i : Instruction Value} (hi : S.Common m lang i) :
    i.Lifted (Function.Spliced S) (S.Codes m lang) i := by
  cases i with
  | literal v => exact .literal (like_refl v)
  | group body => exact .group (hi.body body rfl)
  | _ => exact .plain (fun _ h => by cases h) fun _ h => by cases h

/-- An instruction of one program is run on both sides. -/
theorem common_same (lang : Language Value) (i : Instruction Value) : S.Common .same lang i where
  body body _ := .same lang body
  reads hb _ _ := lookup_like hb fun _ _ => .inl trivial
  writes h := by cases h

theorem common_parts {i : Instruction Value} (hgroup : i.isGroup = false) (hwrites : i.writes = false)
    (hreads : ∀ name, i = .variable name → S.Reads name) : S.Common .parts S.lang i where
  body body h := by
    subst h
    cases hgroup
  reads hb name h := lookup_like hb (hreads name h)
  writes _ := hwrites

/-- Only one program on both sides assigns. -/
theorem use_follows {use : Use} (huse : ∀ path, use = .assign path → m = .same) {v v' : Value}
    (hv : S.Like v v') : S.Follows m S.Like (use.apply v) fun _ => use.apply v' := by
  cases use with
  | keep => exact .pure hv
  | truth =>
    rw [Use.apply, Use.apply, hv.truthy]
    exact .pure (.bool _)
  | assign path =>
    obtain rfl := huse path rfl
    exact (follows_assign path hv).bind fun _ _ _ => .pure hv

theorem useFrames_like {use : Use} (huse : ∀ path, use = .assign path → m = .same) :
    List.Forall₂ (S.Frames m lang) use.frames use.frames := by
  cases use with
  | keep => exact .nil
  | truth => exact .cons .truth .nil
  | assign path => exact .cons (.assign path (huse path rfl)) .nil

/-- A function captures the variables in scope, and its own name is set in them. -/
theorem define_follows {name : String} {params : List String} {body body' : Program Value}
    (hbody : S.Codes m lang body body') (hname : S.Binds m name)
    (hparams : ∀ p ∈ params, S.Binds m p) :
    S.Follows m S.Like (define lang name params body) fun _ => define lang name params body' := by
  refine follows_scope.bind fun b b' hb => follows_freshId.bind fun id id' hid => ?_
  subst hid
  have hf : S.Like (.function (.defined ⟨id, name, params, body, b, lang⟩))
      (.function (.defined ⟨id, name, params, body', b', lang⟩)) :=
    .function (.defined (.mk hbody hname hparams hb.bound hb.left hb.right))
  exact (follows_setScope (hb.insert hname hf)).bind fun _ _ _ => .pure hf

section

variable (hin : S.Enters inner)

include hin

theorem resolve_follows {o o' : Operand} (ho : o.Lifted (Function.Spliced S) (S.Codes m lang) o') :
    S.Follows m (S.Runs m lang) (resolve inner lang depth o)
      fun n => resolve (engine S.hosts n) lang depth o' := by
  cases ho with
  | value hv => exact .pure (.done hv)
  | thunk hcode => exact hin.enter depth hcode

theorem force_follows (ds : List Nat) (hs : S.Stacks m lang stack stack') :
    S.Follows m (S.Forces m lang) (force inner lang depth ds stack)
      fun n => force (engine S.hosts n) lang depth ds stack' := by
  induction ds generalizing stack stack' with
  | nil => exact .pure (.ready hs)
  | cons d ds ih =>
    have hget := forall₂_getElem? hs d
    rcases ho : stack[d]? with _ | o <;> rcases ho' : stack'[d]? with _ | o' <;>
      rw [ho, ho'] at hget <;> cases hget
    · simp only [force, ho, ho']
      exact .fail _
    · next hoo =>
      cases hoo with
      | value hv =>
        cases hv with
        | deferred id =>
          simp only [force, ho, ho']
          exact .pure (.suspended d id .nil hs)
        | _ =>
          simp only [force, ho, ho']
          exact ih hs
      | thunk hcode =>
        rw [force_thunk ho]
        simp only [force_thunk ho']
        refine (hin.enter depth hcode).bind fun p p' hp => ?_
        cases hp with
        | done hv => exact ih (forall₂_set hs d (.value hv))
        | waiting on hframes => exact .pure (.suspended d on hframes hs)

theorem perform_follows {p p' : Plan} (hquiet : m = .parts → p.Quiet)
    (hp : p.Lifted (Function.Spliced S) (S.Codes m lang) p') :
    S.Follows m (S.Steps m lang) (perform inner lang depth p)
      fun n => perform (engine S.hosts n) lang depth p' := by
  cases hp with
  | next hs => exact .pure (.next hs)
  | resolve use ho hs =>
    have huse : ∀ path, use = .assign path → m = .same := by
      rintro path rfl
      cases m with
      | same => rfl
      | parts => exact (hquiet rfl).elim
    refine (resolve_follows hin ho).bind fun q q' hq => ?_
    cases hq with
    | done hv => exact (use_follows huse hv).bind fun _ _ hu => .pure (.next (.cons (.value hu) hs))
    | waiting on hframes =>
      exact .pure (.await on (List.rel_append hframes (useFrames_like huse)) hs)
  | call hf hargs hs =>
    exact (hin.call depth hf hargs).bind fun _ _ hv => .pure (.next (.cons (.value hv) hs))
  | define name params hbody hs =>
    cases m with
    | same =>
      exact (define_follows hbody trivial fun _ _ => trivial).bind fun _ _ hv =>
        .pure (.next (.cons (.value hv) hs))
    | parts => exact (hquiet rfl).elim

theorem step_follows {i : Instruction Value} (hi : S.Common m lang i)
    (hs : S.Stacks m lang stack stack') :
    S.Follows m (S.Steps m lang) (step inner lang depth i stack)
      fun n => step (engine S.hosts n) lang depth i stack' := by
  refine follows_scope.bind fun b b' hb => ?_
  have hquiet : m = .parts → Meets Plan.Quiet (fun _ => True) (plan lang b i stack) :=
    fun hm => plan_quiet (hi.writes hm)
  have hplan := plan_lifted (.refl lang) (Function.spliced_congruent S) hi.lifted (hi.reads hb) hs
  generalize plan lang b i stack = p, plan lang b' i stack' = p' at hplan hquiet ⊢
  cases hplan with
  | error e => exact .fail e
  | ok hp => exact perform_follows hin hquiet hp

/-! ### Code -/

omit hin in
/-- What comes after an instruction, once the rest of the code is compared. -/
theorem afterStep_follows {rest rest' : Program Value} (hrest : S.Codes m lang rest rest')
    (hrun : ∀ {stack stack' : List Operand}, S.Stacks m lang stack stack' →
      S.Follows m (S.Runs m lang) (run inner lang depth rest stack)
        fun n => run (engine S.hosts n) lang depth rest' stack')
    {s s' : Step} (hs : S.Steps m lang s s') :
    S.Follows m (S.Runs m lang) (afterStep inner lang depth rest s)
      fun n => afterStep (engine S.hosts n) lang depth rest' s' := by
  cases hs with
  | await on hframes hstack =>
    exact .pure (.waiting on (List.rel_append hframes (.cons (.push hstack hrest) .nil)))
  | next hstack =>
    cases hstack with
    | nil => exact hrun .nil
    | cons ho hbelow =>
      have hall := List.Forall₂.cons ho hbelow
      cases ho with
      | thunk hcode => exact hrun hall
      | value hv =>
        cases hv with
        | deferred id => exact .pure (.waiting id (.cons (.push hbelow hrest) .nil))
        | _ => exact hrun hall

/-- Code that starts with an instruction that is run on both sides. -/
theorem run_common {i : Instruction Value} {rest rest' : Program Value} (hi : S.Common m lang i)
    (hcode : S.Codes m lang (i :: rest) (i :: rest')) (hrest : S.Codes m lang rest rest')
    (hrun : ∀ {stack stack' : List Operand}, S.Stacks m lang stack stack' →
      S.Follows m (S.Runs m lang) (run inner lang depth rest stack)
        fun n => run (engine S.hosts n) lang depth rest' stack')
    (hs : S.Stacks m lang stack stack') :
    S.Follows m (S.Runs m lang) (run inner lang depth (i :: rest) stack)
      fun n => run (engine S.hosts n) lang depth (i :: rest') stack' := by
  simp only [run_cons]
  refine (force_follows hin (needed i) hs).bind fun r r' hr => ?_
  cases hr with
  | suspended d on hframes hstack =>
    exact .pure (.waiting on (List.rel_append hframes (.cons (.fill d hstack hcode) .nil)))
  | ready hstack =>
    exact (step_follows hin hi hstack).bind fun _ _ hstep => afterStep_follows hrest hrun hstep

theorem finish_follows (hs : S.Stacks m lang stack stack') :
    S.Follows m (S.Runs m lang) (finish inner lang depth stack)
      fun n => finish (engine S.hosts n) lang depth stack' := by
  cases hs with
  | nil => exact .fail _
  | cons ho hbelow =>
    cases hbelow with
    | cons _ _ => exact .fail _
    | nil =>
      simp only [finish_single]
      refine (resolve_follows hin ho).bind fun q q' hq => ?_
      cases hq with
      | done hv => exact .pure (.done hv.normalise)
      | waiting on hframes => exact .pure (.waiting on hframes)

theorem run_same (lang : Language Value) (code : Program Value)
    (hs : S.Stacks .same lang stack stack') :
    S.Follows .same (S.Runs .same lang) (run inner lang depth code stack)
      fun n => run (engine S.hosts n) lang depth code stack' := by
  induction code generalizing stack stack' with
  | nil => exact finish_follows hin hs
  | cons i rest ih =>
    exact run_common hin (common_same lang i) (.same lang _) (.same lang rest) ih hs

end

/-- Code with exchanged parts: a part leads to its value by itself, a function that is defined has
exchanged parts, and all other instructions are run on both sides. -/
theorem run_parts (hin : S.Enters (engine S.hosts n)) {code code' : Program Value}
    (hcode : S.Spliced code code') (hs : S.Stacks .parts S.lang stack stack') :
    S.Follows .parts (S.Runs .parts S.lang) (run (engine S.hosts n) S.lang depth code stack)
      fun n => run (engine S.hosts n) S.lang depth code' stack' := by
  induction hcode generalizing stack stack' with
  | nil => exact finish_follows hin hs
  | @part v part part' rest rest' hpart hpart' hend hend' _ ih =>
    have hleft : ∀ w w', S.Worlds .parts w w' →
        Unfolds (fun n => run (engine S.hosts n) S.lang depth (part ++ rest) stack)
          (fun n => run (engine S.hosts n) S.lang depth rest (.value v :: stack)) w :=
      fun w w' hw => hpart w.scope hw.scope.left depth rest stack w (fun h => (hend h).elim) rfl
    have hright : ∀ w w', S.Worlds .parts w w' →
        Unfolds (fun n => run (engine S.hosts n) S.lang depth (part' ++ rest') stack')
          (fun n => run (engine S.hosts n) S.lang depth rest' (.value v :: stack')) w' :=
      fun w w' hw =>
        hpart' w'.scope hw.scope.right depth rest' stack' w' (fun h => (hend' h).elim) rfl
    exact .left hleft (.right hright (ih (.cons (.value (like_refl v)) hs)))
  | group hbody _ _ ih =>
    simp only [run_group]
    exact ih (.cons (.thunk (.parts hbody)) hs)
  | same hgroup hwrites hreads hrest ih =>
    exact run_common hin (common_parts hgroup hwrites hreads)
      (.parts (.same hgroup hwrites hreads hrest)) (.parts hrest) ih hs
  | define hname hparams hbody _ _ ih =>
    simp only [run_definition]
    exact (define_follows (.parts hbody) hname hparams).bind fun _ _ hf => ih (.cons (.value hf) hs)

theorem run_follows (hin : S.Enters (engine S.hosts n)) {code code' : Program Value}
    (hcode : S.Codes m lang code code') (hs : S.Stacks m lang stack stack') :
    S.Follows m (S.Runs m lang) (run (engine S.hosts n) lang depth code stack)
      fun n => run (engine S.hosts n) lang depth code' stack' := by
  cases hcode with
  | same lang code => exact run_same hin lang code hs
  | parts hcode => exact run_parts hin hcode hs

/-! ### Frames -/

theorem proceed_follows (hin : S.Enters (engine S.hosts n)) {f f' : Frame}
    (hf : S.Frames m lang f f') {v v' : Value} (hv : S.Like v v') :
    S.Follows m (S.Runs m lang) (proceed (engine S.hosts n) lang depth f v)
      fun n => proceed (engine S.hosts n) lang depth f' v' := by
  cases hf with
  | fill d hs hcode => exact run_follows hin hcode (forall₂_set hs d (.value hv))
  | push hs hcode => exact run_follows hin hcode (.cons (.value hv) hs)
  | truth =>
    simp only [proceed, hv.truthy]
    exact .pure (.done (.bool _))
  | assign path hm =>
    subst hm
    exact (follows_assign path hv).bind fun _ _ _ => .pure (.done hv)

theorem resume_follows (hin : S.Enters (engine S.hosts n)) {frames frames' : List Frame}
    (hframes : List.Forall₂ (S.Frames m lang) frames frames') {v v' : Value} (hv : S.Like v v') :
    S.Follows m (S.Runs m lang) (resume (engine S.hosts n) lang depth frames v)
      fun n => resume (engine S.hosts n) lang depth frames' v' := by
  induction hframes generalizing v v' with
  | nil => exact .pure (.done hv)
  | cons hf hrest ih =>
    simp only [resume_cons]
    refine (proceed_follows hin hf hv).bind fun p p' hp => ?_
    cases hp with
    | done hv => exact ih hv
    | waiting on hframes => exact .pure (.waiting on (List.rel_append hframes hrest))

end Machine.Splice

end Formula

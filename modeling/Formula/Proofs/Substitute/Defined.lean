import Formula.Proofs.Substitute.Calls
import Formula.Proofs.Substitute.Preserved

/-!
# Substituting where functions are defined

A variable may be replaced in a program that defines functions, too, if none of them binds the
variable or a name that the replacement reads. The functions have the replacement in their programs
then, where those of the other run read the variable, so the two runs come to the same but for what is
within functions. A parameter that has the variable's name is replaced like the variable, and one that
the replacement reads is read in its place.
-/

namespace Formula

open Waiting Machine

/-! ### The same but for what is within functions -/

/-- The same native function, or functions that differ in nothing but their programs and the variables
they captured. -/
inductive Function.Namesakes : Function Value → Function Value → Prop
  | native (f : Native) : Function.Namesakes (.native f) (.native f)
  | defined (id : Nat) (name : String) (params : List String) (lang : Language Value)
      {body body' : Program Value} {captured captured' : Bindings} :
      Function.Namesakes (.defined ⟨id, name, params, body, captured, lang⟩)
        (.defined ⟨id, name, params, body', captured', lang⟩)
  | prepared (id : Nat) (name : String) (params : List String) (lang : Language Value)
      {body body' : Program Value} {captured captured' : Bindings} :
      Function.Namesakes (.prepared ⟨id, name, params, body, captured, lang⟩)
        (.prepared ⟨id, name, params, body', captured', lang⟩)

theorem Function.Spliced.namesakes {S : Splice} {f f' : Function Value}
    (h : Function.Spliced S f f') : Function.Namesakes f f' := by
  cases h with
  | native f => exact .native f
  | defined hc =>
    cases hc
    exact .defined ..
  | prepared hc =>
    cases hc
    exact .prepared ..

deriving instance DecidableEq for Mention

namespace Eval

variable {α : Type}

/-- Whatever the first evaluations come to in the end, the others come to in their own world, and the
host notes the same, but for what is within functions. -/
def Tracks (outcome : Except EvalError Value → Except (Stop EvalError) α) (x : Nat → Eval α)
    (w : World) (y : Nat → Eval α) (w' : World) : Prop :=
  ∀ res w₁, Eventually x w (outcome res) w₁ → ∃ res' w₁',
    Alike (Value.Lifted Function.Namesakes) res res' ∧
    Values.Lifted Function.Namesakes w₁.log w₁'.log ∧ Eventually y w' (outcome res') w₁'

/-- Evaluations that come to the same in the end, each in its own world. -/
structure Corresponds (outcome : Except EvalError Value → Except (Stop EvalError) α)
    (x : Nat → Eval α) (w : World) (y : Nat → Eval α) (w' : World) : Prop where
  forth : Tracks outcome x w y w'
  back : Tracks outcome y w' x w

end Eval

/-- An instruction that holds no program, writes nothing and reads no variable. -/
def Instruction.Still : Instruction Value → Prop
  | .group _ | .variable _ | .define _ => False
  | .binary op => op ≠ "="
  | _ => True

namespace Machine.Splice

open Eval

variable {S : Splice} {w w' : World}

/-! ### Two runs -/

/-- What both runs start from, with the sides exchanged. -/
def flip (S : Splice) : Splice := { S with left := S.right, right := S.left }

theorem Reads.flip {name : String} (h : S.Reads name) : S.flip.Reads name := fun other hother =>
  (h other hother).imp_right Eq.symm

theorem Spliced.flip {code code' : Program Value} (h : S.Spliced code code') :
    S.flip.Spliced code' code := by
  induction h with
  | nil => exact .nil
  | part hpart hpart' hend hend' _ ih => exact .part hpart' hpart hend' hend ih
  | group _ _ ihbody ih => exact .group ihbody ih
  | same hgroup hwrites hreads _ ih =>
    exact .same hgroup hwrites (fun name hname => (hreads name hname).flip) ih
  | define hname hparams _ _ ihbody ih => exact .define hname hparams ihbody ih

theorem stacks_refl (lang : Language Value) (stack : List Operand) :
    S.Stacks .same lang stack stack := by
  refine List.forall₂_same.mpr fun o _ => ?_
  cases o with
  | value v => exact .value (like_refl v)
  | thunk code => exact .thunk (.same lang code)

theorem frames_refl (lang : Language Value) (f : Frame) : S.Frames .same lang f f := by
  cases f with
  | fill d stack code => exact .fill d (stacks_refl lang stack) (.same lang code)
  | push stack code => exact .push (stacks_refl lang stack) (.same lang code)
  | truth => exact .truth
  | assign path => exact .assign path rfl

theorem promise_refl (p : Promise) : p.Lifted (Function.Spliced S) p := by
  induction p with
  | value v => exact .value (like_refl v)
  | error e => exact .error e
  | noting entries _ ih => exact .noting (likes_refl entries) ih
  | nested _ ih => exact .nested ih

theorem deferreds_refl (d : Deferred) : S.Deferreds d d := by
  cases d with
  | settled r =>
    cases r with
    | ok v => exact .settled (.ok (like_refl v))
    | error e => exact .settled (.error e)
  | promised p => exact .promised (promise_refl p)
  | suspended b lang frames on =>
    exact .suspended on (.refl b) (List.forall₂_same.mpr fun f _ => frames_refl lang f)

/-- Worlds that are the same but for the variables both start from. -/
theorem Worlds.start (h : ∀ name, S.bound name → Record.get? S.left name = Record.get? S.right name)
    (w : World) : S.Worlds .parts { w with scope := S.left } { w with scope := S.right } where
  scope := .start h
  log := likes_refl w.log
  deferreds := List.forall₂_same.mpr fun d _ => deferreds_refl d
  nextId := rfl
  seed := rfl

/-- Evaluations that do the same come to the same in the end. -/
theorem tracks_of_follows {α : Type} {R : α → α → Prop}
    {outcome : Except EvalError Value → Except (Stop EvalError) α} {x y : Nat → Eval α}
    (hxy : ∀ n, S.Follows .parts R (x n) y) (hw : S.Worlds .parts w w')
    (hended : ∀ res, outcome res ≠ .error .exhausted)
    (houtcome : ∀ {res o'}, Alike R (outcome res) o' →
      ∃ res', Alike S.Like res res' ∧ o' = outcome res') : Tracks outcome x w y w' := by
  have hlike : ∀ v v', S.Like v v' → v.Lifted Function.Namesakes v' := fun v _ =>
    Value.Lifted.mono (fun _ _ => Function.Spliced.namesakes) v
  rintro res w₁ ⟨N, hN⟩
  obtain ⟨o', w₁', hrel, hw₁, hy⟩ := hxy N w w' _ w₁ hw (hN N (Nat.le_refl N)) (hended res)
  obtain ⟨res', hres, rfl⟩ := houtcome hrel
  exact ⟨res', w₁', hres.mono hlike, hw₁.log.imp hlike, hy⟩

theorem ended_like {m : Mode} {lang : Language Value} {res : Except EvalError Value}
    {o' : Except (Stop EvalError) Progress} (h : Alike (S.Runs m lang) (ended res) o') :
    ∃ res', Alike S.Like res res' ∧ o' = ended res' := by
  cases res with
  | error e =>
    cases h
    exact ⟨.error e, .error e, rfl⟩
  | ok v =>
    cases h with
    | ok hp =>
      cases hp with
      | done hv => exact ⟨.ok _, .ok hv, rfl⟩

theorem result_like {res : Except EvalError Value} {o' : Except (Stop EvalError) Value}
    (h : Alike S.Like (result res) o') : ∃ res', Alike S.Like res res' ∧ o' = result res' := by
  cases res with
  | error e =>
    cases h
    exact ⟨.error e, .error e, rfl⟩
  | ok v =>
    cases h with
    | ok hv => exact ⟨.ok _, .ok hv, rfl⟩

section

variable {p q : Expr} (h : S.Spliced p.compile q.compile) (hhosts : S.hosts.Uniform)

include h hhosts

theorem Spliced.evaluates (n : Nat) :
    S.Follows .parts (S.Runs .parts S.lang) (p.evaluate S.hosts n S.lang)
      fun m => q.evaluate S.hosts m S.lang := (engine_enters hhosts n).enter 0 (.parts h)

theorem Spliced.settles (n : Nat) :
    S.Follows .parts S.Like (p.evaluate S.hosts n S.lang >>= Progress.settle S.hosts n S.lang)
      fun m => q.evaluate S.hosts m S.lang >>= Progress.settle S.hosts m S.lang := by
  refine (h.evaluates hhosts n).bind fun s s' hs => ?_
  obtain ⟨-, hsettle, hdrive⟩ := waiting_follows hhosts n n
  cases hs with
  | done hv => exact hsettle .parts hv
  | waiting on hframes => exact hdrive on hframes

/-- Programs with exchanged parts come to the same, each with its own variables. -/
theorem Spliced.corresponds
    (hbound : ∀ name, S.bound name → Record.get? S.left name = Record.get? S.right name) (w : World) :
    Corresponds ended (fun m => p.evaluate S.hosts m S.lang) { w with scope := S.left }
      (fun m => q.evaluate S.hosts m S.lang) { w with scope := S.right } ∧
    Corresponds result
      (fun m => p.evaluate S.hosts m S.lang >>= Progress.settle S.hosts m S.lang)
      { w with scope := S.left }
      (fun m => q.evaluate S.hosts m S.lang >>= Progress.settle S.hosts m S.lang)
      { w with scope := S.right } := by
  have hforth : S.Worlds .parts { w with scope := S.left } { w with scope := S.right } :=
    .start hbound w
  have hback : S.flip.Worlds .parts { w with scope := S.right } { w with scope := S.left } :=
    Worlds.start (S := S.flip) (fun name hname => (hbound name hname).symm) w
  refine ⟨⟨?_, ?_⟩, ⟨?_, ?_⟩⟩
  · exact tracks_of_follows (h.evaluates hhosts) hforth ended_ne_exhausted ended_like
  · exact tracks_of_follows (h.flip.evaluates hhosts) hback ended_ne_exhausted ended_like
  · exact tracks_of_follows (h.settles hhosts) hforth result_ne_exhausted result_like
  · exact tracks_of_follows (h.flip.settles hhosts) hback result_ne_exhausted result_like

end

/-! ### Programs with and without the substitution -/

namespace Spliced

variable {code code' rest rest' : Program Value}

theorem append (h : S.Spliced code code') (hrest : S.Spliced rest rest') :
    S.Spliced (code ++ rest) (code' ++ rest') := by
  induction h with
  | nil => exact hrest
  | part hpart hpart' hend hend' _ ih =>
    rw [List.append_assoc, List.append_assoc]
    exact .part hpart hpart' hend hend' ih
  | group hbody _ _ ih => exact .group hbody ih
  | same hgroup hwrites hreads _ ih => exact .same hgroup hwrites hreads ih
  | define hname hparams hbody _ _ ih =>
    rw [List.cons_append, List.cons_append, List.append_assoc, List.append_assoc]
    exact .define hname hparams hbody ih

theorem still {i : Instruction Value} (hi : i.Still) (hrest : S.Spliced rest rest') :
    S.Spliced (i :: rest) (i :: rest') := by
  cases i with
  | «variable» _ | group _ | define _ => exact hi.elim
  | binary op => exact .same rfl (decide_eq_false hi) (fun _ h => by cases h) hrest
  | _ => exact .same rfl rfl (fun _ h => by cases h) hrest

end Spliced

/-- A place where a name may be mentioned, if a variable is replaced: what is read is the variable, or
the same on both sides, nothing is assigned, and functions bind given names. -/
def Keeps (S : Splice) (x : String) : Mention → Prop
  | .read name => name = x ∨ S.Reads name
  | .assigned _ _ => False
  | .bound name => S.bound name

section

open Spliced

variable {x : String} {r : Expr}

mutual

/-- If the replacement is a part in place of the variable, the program with the substitution and the
program itself have exchanged parts. -/
theorem substitute_spliced (hx : S.Spliced r.compile [.variable x]) : (e : Expr) → e.Regular →
    (∀ m ∈ e.mentions, S.Keeps x m) → S.Spliced (Expr.substitute x r e).compile e.compile
  | .literal _, _, _ | .undefined, _, _ => still trivial .nil
  | .variable name, _, hm => by
    unfold Expr.substitute
    split
    · next hname =>
      rw [hname]
      exact hx
    · next hname =>
      have hreads : S.Reads name := (hm _ (List.mem_singleton_self _)).resolve_left hname
      refine .same rfl rfl (fun other hother => ?_) .nil
      cases hother
      exact hreads
  | .unary _ e, he, hm =>
    (substitute_spliced hx e he.2 hm).append (still trivial .nil)
  | .member e _, he, hm =>
    (substitute_spliced hx e he hm).append (still trivial .nil)
  | .closed e, he, hm => .group (substitute_spliced hx e he hm) .nil
  | .binary op a b, he, hm => by
    obtain ⟨ha, hb⟩ := List.forall_mem_append.mp hm
    have hop : op ≠ "=" := by
      rintro rfl
      exact absurd he.1 (by simp [Instruction.isStructural, Instruction.connectives])
    exact (substitute_spliced hx a he.2.1 ha).append ((substitute_spliced hx b he.2.2 hb).append
      (still hop .nil))
  | .connective c a b, he, hm => by
    obtain ⟨ha, hb⟩ := List.forall_mem_append.mp hm
    have hop : c.symbol ≠ "=" := by
      cases c <;> decide
    exact (substitute_spliced hx a he.1 ha).append (.group (substitute_spliced hx b he.2 hb)
      (still hop .nil))
  | .conditional t y n, he, hm => by
    obtain ⟨ht, hm⟩ := List.forall_mem_append.mp hm
    obtain ⟨hy, hn⟩ := List.forall_mem_append.mp hm
    exact (substitute_spliced hx t he.1 ht).append (.group (substitute_spliced hx y he.2.1 hy)
      (.group (substitute_spliced hx n he.2.2 hn) (still trivial .nil)))
  | .assign _ _ _, _, hm => (hm _ (List.mem_cons_self ..)).elim
  | .define name params body, he, hm => by
    obtain ⟨hname, hm⟩ := List.forall_mem_cons.mp hm
    obtain ⟨hparams, hbody⟩ := List.forall_mem_append.mp hm
    exact .define hname (fun p hp => hparams _ (List.mem_map_of_mem hp))
      (substitute_spliced hx body he hbody) .nil
  | .call f args, he, hm => by
    obtain ⟨hf, hargs⟩ := List.forall_mem_append.mp hm
    rw [Expr.substitute, Expr.compile, Expr.compile, Expr.length_substituteItems]
    exact (substitute_spliced hx f he.1 hf).append
      ((substituteItems_spliced hx args he.2 hargs).append (still trivial .nil))
  | .array items, he, hm => by
    rw [Expr.substitute, Expr.compile, Expr.compile, Expr.length_substituteItems]
    exact (substituteItems_spliced hx items he hm).append
      (still trivial .nil)
  | .object fields, he, hm =>
    still trivial ((substituteFields_spliced hx fields he hm).append
      (still trivial .nil))
  | .case (some t) branches other, he, hm => by
    obtain ⟨ht, hm⟩ := List.forall_mem_append.mp hm
    obtain ⟨hbranches, hother⟩ := List.forall_mem_append.mp hm
    rw [Expr.substitute, Expr.substituteOption, Expr.compile, Expr.compile,
      Expr.length_substituteBranches, Expr.otherCount_substitute]
    exact (substitute_spliced hx t he.1 ht).append ((substituteBranches_spliced hx .whenMatch
      (fun _ => trivial) 0 branches he.2.1 hbranches).append
        ((substituteOption_spliced hx other he.2.2 hother).append
          (still trivial .nil)))
  | .case none branches other, he, hm => by
    obtain ⟨hbranches, hother⟩ := List.forall_mem_append.mp hm
    rw [Expr.substitute, Expr.substituteOption, Expr.compile, Expr.compile,
      Expr.length_substituteBranches, Expr.otherCount_substitute]
    exact (substituteBranches_spliced hx .whenCond (fun _ => trivial) 0
      branches he.2.1 hbranches).append ((substituteOption_spliced hx other he.2.2 hother).append
        (still trivial .nil))
  | .sequence a b, he, hm => by
    obtain ⟨ha, hb⟩ := List.forall_mem_append.mp hm
    exact .group ((substitute_spliced hx a he.1 ha).append
      (still trivial (substitute_spliced hx b he.2 hb))) .nil

theorem substituteItems_spliced (hx : S.Spliced r.compile [.variable x]) : (es : List Expr) →
    Expr.AllItems (fun i => i.isStructural = false) es → (∀ m ∈ Expr.mentionsItems es, S.Keeps x m) →
    S.Spliced (Expr.compileItems (Expr.substituteItems x r es)) (Expr.compileItems es)
  | [], _, _ => .nil
  | e :: rest, he, hm => by
    obtain ⟨hfirst, hrest⟩ := List.forall_mem_append.mp hm
    exact (substitute_spliced hx e he.1 hfirst).append (substituteItems_spliced hx rest he.2 hrest)

theorem substituteFields_spliced (hx : S.Spliced r.compile [.variable x]) :
    (fields : List (String × Expr)) → Expr.AllFields (fun i => i.isStructural = false) fields →
    (∀ m ∈ Expr.mentionsFields fields, S.Keeps x m) →
    S.Spliced (Expr.compileFields (Expr.substituteFields x r fields)) (Expr.compileFields fields)
  | [], _, _ => .nil
  | (_, e) :: rest, he, hm => by
    obtain ⟨hfirst, hrest⟩ := List.forall_mem_append.mp hm
    exact (substitute_spliced hx e he.1 hfirst).append (still trivial
      (substituteFields_spliced hx rest he.2 hrest))

theorem substituteBranches_spliced (hx : S.Spliced r.compile [.variable x])
    (branch : Nat → Instruction Value) (hbranch : ∀ k, (branch k).Still) :
    (k : Nat) → (branches : List (Expr × Expr)) →
    Expr.AllBranches (fun i => i.isStructural = false) branches →
    (∀ m ∈ Expr.mentionsBranches branches, S.Keeps x m) →
    S.Spliced (Expr.compileBranches branch k (Expr.substituteBranches x r branches))
      (Expr.compileBranches branch k branches)
  | _, [], _, _ => .nil
  | k, (c, v) :: rest, he, hm => by
    obtain ⟨hc, hm⟩ := List.forall_mem_append.mp hm
    obtain ⟨hv, hrest⟩ := List.forall_mem_append.mp hm
    exact (substitute_spliced hx c he.1 hc).append (.group (substitute_spliced hx v he.2.1 hv)
      (still (hbranch k)
        (substituteBranches_spliced hx branch hbranch (k + 1) rest he.2.2 hrest)))

theorem substituteOption_spliced (hx : S.Spliced r.compile [.variable x]) : (other : Option Expr) →
    Expr.AllOption (fun i => i.isStructural = false) other →
    (∀ m ∈ Expr.mentionsOption other, S.Keeps x m) →
    S.Spliced (Expr.compileOther (Expr.substituteOption x r other)) (Expr.compileOther other)
  | none, _, _ => .nil
  | some e, he, hm =>
    .group (substitute_spliced hx e he hm) (still trivial .nil)

end

end

end Machine.Splice

/-! ### The replacement -/

namespace Machine

variable {hosts : Hosts} {lang : Language Value} {a b : Bindings} {names : String → Prop}

/-- A name stands for the same where the variables that it may read are the same. -/
theorem lookup_agreeing {name : String} (h : Bindings.Agrees names a b) (hname : names name)
    (halias : ∀ other, lang.resolve? name = some (.alias other) → names other) :
    lookup lang a name = lookup lang b name := by
  unfold lookup
  rw [h name hname]
  rcases hresolve : lang.resolve? name with _ | other | v
  · rfl
  · simp only [h other (halias other hresolve)]
  · rfl

/-- Idle code has exchanged parts where its names stand for the same: there is none. -/
theorem exchanged_self {P : Value → Prop} {code : Program Value} (hidle : Idle P code)
    (hread : ∀ name ∈ Symbols.mentionedIn code, lookup lang a name = lookup lang b name)
    {σ : List Shape} {s : Shape} (he : effects code σ = some [s]) :
    Exchanged hosts lang a b σ code code := by
  induction hidle generalizing σ s with
  | nil =>
    cases he
    exact .nil s
  | @cons i rest _ hwrites _ _ hbalanced _ _ ihbody ih =>
    obtain ⟨σ₁, he₁, he⟩ := Option.bind_eq_some_iff.mp he
    obtain ⟨hfirst, hothers⟩ := List.forall_mem_append.mp hread
    by_cases hgroup : ∃ body, i = .group body
    · obtain ⟨body, rfl⟩ := hgroup
      obtain ⟨t, hbody⟩ := hbalanced body rfl
      cases he₁
      exact .group (ihbody body rfl hfirst hbody) (ih hothers he)
    · have hnogroup : i.isGroup = false := by
        cases i with
        | group body => exact (hgroup ⟨body, rfl⟩).elim
        | _ => rfl
      refine .same hnogroup hwrites he₁ (fun name hname => hfirst name ?_) (ih hothers he)
      subst hname
      exact List.mem_singleton_self name

end Machine

variable {hosts : Hosts} {lang : Language Value} {p r : Expr} {x source replacement : String}
  {v : Value} {n : Nat} {w w₁ : World} {P : Value → Prop}

/-- The code of a replacement leads to its value wherever the variables are the same that it may
read. -/
theorem Expr.leads_agreeing (hc : Closed P hosts lang) (hlang : lang.Complete)
    (hr : parseExpr lang replacement = .ok r) (hwrites : r.written = [])
    (hcalls : r.callsNothing = true) (hshape : r.shape = .value) (hb : ∀ q ∈ w.scope, P q.2)
    (hv : r.evaluate hosts n lang w = (.ok (.done v), w₁)) (hzero : v ≠ .number 0.0)
    {names : String → Prop} (hnames : ∀ name ∈ Symbols.mentionedIn r.compile, names name ∧
      ∀ other, lang.resolve? name = some (.alias other) → names other)
    {b : Bindings} (h : w.scope.Agrees names b) : Leads hosts lang b r.compile [] [.value v] := by
  have hidle := Expr.compile_idle hc.partwise.toHereditary hlang hc.constants hr hwrites hcalls
  have heffects := Expr.effects_compile r (parseExpr_all hlang lang.emits_regular hr) []
  have hsame : ∀ name ∈ Symbols.mentionedIn r.compile,
      lookup lang w.scope name = lookup lang b name := fun name hname =>
    lookup_agreeing h (hnames name hname).1 (hnames name hname).2
  have hself : Exchanged hosts lang w.scope b [] r.compile r.compile :=
    exchanged_self hidle hsame heffects
  have hended : r.evaluate hosts n lang w = (ended (.ok v), w₁) := hv
  obtain ⟨-, N, hN⟩ := hself.evaluate rfl hended
  have hread : ∀ name ∈ Symbols.mentionedIn r.compile,
      Meets P (fun _ => True) (lookup lang b name) := fun name hname =>
    hsame name hname ▸ hc.reads hb name
  obtain ⟨o, hpair, hleads⟩ := Expr.leads_value (w := { w with scope := b }) hc hlang hr hwrites
    hcalls hread (hN N (Nat.le_refl N)) hzero b
  rw [hshape] at hpair
  cases hpair with
  | value v => exact hleads

/-! ### Evaluation -/

/-- The programs with and without the substitution have exchanged parts, where functions bind neither
the variable nor a name that the replacement may read. -/
theorem Expr.substitute_free (hc : Closed P hosts lang) (hlang : lang.Complete)
    (hp : parseExpr lang source = .ok p) (hr : parseExpr lang replacement = .ok r)
    (hassigns : ∀ root members, .assigned root members ∉ p.mentions) (hwrites : r.written = [])
    (hcalls : r.callsNothing = true) (hshape : r.shape = .value) (hreserved : isReserved x = false)
    (hfunction : lang.function? x = none)
    (hoperator : lang.isOperatorEnabled x = true → lang.unaryOp? x = none)
    (halias : ∀ name, .read name ∈ p.mentions → name ≠ x → lang.resolve? name ≠ some (.alias x))
    (hbound : .bound x ∉ p.mentions)
    (hfree : ∀ name, .bound name ∈ p.mentions → ∀ m ∈ r.mentions,
      m.name ≠ name ∧ lang.resolve? m.name ≠ some (.alias name))
    (hb : ∀ q ∈ w.scope, P q.2) (hv : r.evaluate hosts n lang w = (.ok (.done v), w₁))
    (hzero : v ≠ .number 0.0) :
    Splice.Spliced ⟨hosts, lang, (.bound · ∈ p.mentions), w.scope, Record.insert w.scope x v⟩
      (Expr.substitute x r p).compile p.compile := by
  let S : Splice := ⟨hosts, lang, (.bound · ∈ p.mentions), w.scope, Record.insert w.scope x v⟩
  have hpart : ∀ b, S.left.Agrees (¬S.bound ·) b → Leads hosts lang b r.compile [] [.value v] := by
    refine fun b hagrees => Expr.leads_agreeing hc hlang hr hwrites hcalls hshape hb hv hzero
      (fun name hname => ?_) hagrees
    rw [Expr.mentionedIn_compile] at hname
    obtain ⟨m, hm, rfl⟩ := List.mem_map.mp hname
    exact ⟨fun hb => (hfree _ hb m hm).1 rfl, fun _ hresolve hb => (hfree _ hb m hm).2 hresolve⟩
  have hread : ∀ b, S.right.Agrees (¬S.bound ·) b →
      Leads hosts lang b [.variable x] [] [.value v] := by
    intro b hagrees
    have hget : Record.get? b x = some v :=
      (hagrees x hbound).trans (Record.get?_insert_self ..)
    exact leads_variable (Expr.evaluate_known hv).ready
      (lookup_variable hreserved hfunction hoperator hget)
  have hsite : S.Spliced r.compile [.variable x] := by
    have h := Splice.Spliced.part hpart hread (Expr.endStatement_notMem r) (by simp) .nil
    rwa [List.append_nil, List.append_nil] at h
  refine Splice.substitute_spliced hsite p (parseExpr_all hlang lang.emits_regular hp) fun m hm => ?_
  cases m with
  | assigned root members => exact (hassigns root members hm).elim
  | bound name => exact hm
  | read name =>
    refine (em (name = x)).imp_right fun hne other hother => .inr ?_
    have hne' : other ≠ x := by
      rintro rfl
      exact hother.elim (fun heq => hne heq.symm) (halias name hm hne)
    exact (Record.get?_insert_of_ne w.scope v hne').symm

/-- A function that joins its argument to a variable. -/
def appendingSource : String := "f(y) = y || x; f('a')"

def appendingWorld : World := World.start [("z", .string "b")] 0

/-- A program in which an expression is substituted for a variable corresponds to the program itself
in a scope where the variable has the expression's value, though it may define functions, as long as
these bind neither the variable nor a name that the expression may read: whatever one of them comes
to, an error or a value, at once or after waiting, the other comes to as well, but for what is within
functions. -/
theorem evaluate_substituted_free (hhosts : hosts.Uniform) (hc : Closed P hosts lang)
    (hlang : lang.Complete) (hp : parseExpr lang source = .ok p)
    (hr : parseExpr lang replacement = .ok r)
    (hassigns : ∀ root members, .assigned root members ∉ p.mentions) (hwrites : r.written = [])
    (hcalls : r.callsNothing = true) (hshape : r.shape = .value) (hreserved : isReserved x = false)
    (hfunction : lang.function? x = none)
    (hoperator : lang.isOperatorEnabled x = true → lang.unaryOp? x = none)
    (halias : ∀ name, .read name ∈ p.mentions → name ≠ x → lang.resolve? name ≠ some (.alias x))
    (hbound : .bound x ∉ p.mentions)
    (hfree : ∀ name, .bound name ∈ p.mentions → ∀ m ∈ r.mentions,
      m.name ≠ name ∧ lang.resolve? m.name ≠ some (.alias name))
    (hb : ∀ q ∈ w.scope, P q.2) (hv : r.evaluate hosts n lang w = (.ok (.done v), w₁))
    (hzero : v ≠ .number 0.0) :
    Eval.Corresponds ended (fun m => (Expr.substitute x r p).evaluate hosts m lang) w
      (fun m => p.evaluate hosts m lang) { w with scope := Record.insert w.scope x v } ∧
    Eval.Corresponds result
      (fun m => (Expr.substitute x r p).evaluate hosts m lang >>= Progress.settle hosts m lang) w
      (fun m => p.evaluate hosts m lang >>= Progress.settle hosts m lang)
      { w with scope := Record.insert w.scope x v } := by
  have h := Expr.substitute_free hc hlang hp hr hassigns hwrites hcalls hshape hreserved hfunction
    hoperator halias hbound hfree hb hv hzero
  refine Splice.Spliced.corresponds h hhosts (fun name hname => ?_) w
  have hne : name ≠ x := by
    rintro rfl
    exact hbound hname
  exact (Record.get?_insert_of_ne w.scope v hne).symm

theorem quotingHosts_uniform : quotingHosts.Uniform := by
  intro F _ _ key args args' hargs
  unfold quotingHosts
  split
  · exact ⟨.nil, .value (.string _)⟩
  · exact ⟨.nil, .value (Operation.arg_lifted hargs 0)⟩

/-- A variable is put in place of the one that the function reads. -/
theorem appending_substituted : ∃ p r, parseExpr (Language.ofOptions 0 {}) appendingSource = .ok p ∧
    parseExpr (Language.ofOptions 0 {}) "z" = .ok r ∧ ∃ w₂, ∃ N, ∀ m ≥ N,
      (Expr.substitute "x" r p).evaluate quotingHosts m (Language.ofOptions 0 {}) appendingWorld =
        (ended (.ok (.string "ab")), w₂) := by
  obtain ⟨p, hp, hfacts⟩ := exists_ok_of_map (show (parseExpr (Language.ofOptions 0 {})
    appendingSource).toOption.map (fun p => (p.mentions, string? (p.evaluate quotingHosts 9
      (Language.ofOptions 0 {}) { appendingWorld with
        scope := Record.insert appendingWorld.scope "x" (.string "b") }).1)) =
    some ([.bound "f", .bound "y", .read "y", .read "x", .read "f"], some "ab") by decide +kernel)
  obtain ⟨r, hr, hvalue⟩ := exists_ok_of_map (show (parseExpr (Language.ofOptions 0 {})
    "z").toOption.map (fun r => (r.written, r.callsNothing, r.mentions, r.shape, string?
      (r.evaluate quotingHosts 9 (Language.ofOptions 0 {}) appendingWorld).1)) =
    some ([], true, [.read "z"], .value, some "b") by decide +kernel)
  simp only [Prod.mk.injEq] at hfacts hvalue
  obtain ⟨hmentions, hjoined⟩ := hfacts
  obtain ⟨hwrites, hcalls, hreads, hshape, hb⟩ := hvalue
  rcases hrun : r.evaluate quotingHosts 9 (Language.ofOptions 0 {}) appendingWorld with ⟨o, w₁⟩
  rw [hrun] at hb
  cases of_string? hb
  rcases hbound : p.evaluate quotingHosts 9 (Language.ofOptions 0 {}) { appendingWorld with
    scope := Record.insert appendingWorld.scope "x" (.string "b") } with ⟨o', w'⟩
  rw [hbound] at hjoined
  cases of_string? hjoined
  have hclosed : Closed Value.Settled quotingHosts (Language.ofOptions 0 {}) :=
    .settled (.standard quotingHosts 0 {}) Language.standardConstants_settled fun _ _ h => by cases h
  have hcomplete : (Language.ofOptions 0 {}).Complete :=
    Language.Extended.complete (g := .direct) (.standard 0 {})
  have hsettled : ∀ q ∈ appendingWorld.scope, q.2.Settled := by
    simp [appendingWorld, World.start, Value.Settled, Value.isSettled]
  have hfree : ∀ name, .bound name ∈ p.mentions → ∀ m ∈ r.mentions,
      m.name ≠ name ∧ (Language.ofOptions 0 {}).resolve? m.name ≠ some (.alias name) := by
    rw [hmentions, hreads]
    refine fun name hname m hm => ⟨?_, fun h => by cases h⟩
    obtain rfl := List.mem_singleton.mp hm
    rintro rfl
    revert hname
    decide
  have hunbound : .bound "x" ∉ p.mentions := by
    rw [hmentions]
    decide
  obtain ⟨hsame, -⟩ := evaluate_substituted_free (x := "x") quotingHosts_uniform hclosed hcomplete hp
    hr (by simp [hmentions]) hwrites hcalls hshape rfl (by decide +kernel) (by decide +kernel)
    (fun _ _ _ h => by cases h) hunbound hfree hsettled hrun (by simp)
  have hcomes : Eventually (fun m => p.evaluate quotingHosts m (Language.ofOptions 0 {}))
      { appendingWorld with scope := Record.insert appendingWorld.scope "x" (.string "b") }
      (ended (.ok (.string "ab"))) w' := by
    -- more levels than nine change nothing
    refine ⟨9, fun m hm => ?_⟩
    have hbelow : Eval.Below (p.evaluate quotingHosts 9 (Language.ofOptions 0 {}))
        (p.evaluate quotingHosts m (Language.ofOptions 0 {})) :=
      (engine_below quotingHosts hm).enter (Language.ofOptions 0 {}) 0 p.compile
    exact (hbelow _ (by rw [hbound]; simp)).trans hbound
  obtain ⟨res, w₂, hres, -, hends⟩ := hsame.back _ w' hcomes
  cases hres with
  | ok hv =>
    cases hv
    exact ⟨p, r, hp, hr, w₂, hends⟩

/-- Where a program defines a function, a read of a parameter is replaced like one of the variable of
that name: the function gives the replacement for every argument. -/
theorem parameter_replaced : ∃ p r w₁ w₂ w₃,
    parseExpr (Language.ofOptions 0 {}) "f(x) = x; f('a')" = .ok p ∧
    parseExpr (Language.ofOptions 0 {}) "'b'" = .ok r ∧ p.written = ["f"] ∧
    r.evaluate quotingHosts 9 (Language.ofOptions 0 {}) (World.start [] 0) =
      (ended (.ok (.string "b")), w₁) ∧
    (Expr.substitute "x" r p).evaluate quotingHosts 9 (Language.ofOptions 0 {})
      (World.start [] 0) = (ended (.ok (.string "b")), w₂) ∧
    p.evaluate quotingHosts 9 (Language.ofOptions 0 {}) (World.start [("x", .string "b")] 0) =
      (ended (.ok (.string "a")), w₃) := by
  obtain ⟨p, hp, hfacts⟩ := exists_ok_of_map (show (parseExpr (Language.ofOptions 0 {})
    "f(x) = x; f('a')").toOption.map (fun p => (p.written, string? (p.evaluate quotingHosts 9
      (Language.ofOptions 0 {}) (World.start [("x", .string "b")] 0)).1)) =
    some (["f"], some "a") by decide +kernel)
  obtain ⟨r, hr, hvalue⟩ := exists_ok_of_map (show (parseExpr (Language.ofOptions 0 {})
    "'b'").toOption.map (fun r => string?
      (r.evaluate quotingHosts 9 (Language.ofOptions 0 {}) (World.start [] 0)).1) =
    some (some "b") by decide +kernel)
  have hreplaced : (parseExpr (Language.ofOptions 0 {}) "f(x) = x; f('a')").toOption.bind (fun p =>
      (parseExpr (Language.ofOptions 0 {}) "'b'").toOption.bind fun r => string?
        ((Expr.substitute "x" r p).evaluate quotingHosts 9 (Language.ofOptions 0 {})
          (World.start [] 0)).1) = some "b" := by
    decide +kernel
  rw [hp, hr] at hreplaced
  simp only [Prod.mk.injEq] at hfacts
  exact ⟨p, r, _, _, _, hp, hr, hfacts.1, Prod.ext (of_string? hvalue) rfl,
    Prod.ext (of_string? hreplaced) rfl, Prod.ext (of_string? hfacts.2) rfl⟩

end Formula

import Formula.Proofs.Expr.Parsed
import Formula.Proofs.Tree.Compiled

/-!
# The machine refines the tree evaluator

A part is run as it is evaluated, hence a call goes as the evaluator has it, hence, by induction
on the levels an engine nests, so does every program that is compiled from an expression.
-/

namespace Formula

namespace Machine

theorem run_thunk (inner : Engine) (lang : Language Value) (depth : Nat) (code : Program Value) :
    run inner lang depth [] [.thunk code] = inner.enter lang depth code >>= fun
      | .done v => pure (.done v.normalise)
      | .waiting frames on => pure (.waiting frames on) := rfl

end Machine

namespace Tree

open Eval TreeEval

section

variable {g : Guard} {inner : Formula.Engine} {tree : Engine} {order : Order}
  {lang : Language Value} {depth : Nat}

/-! ### Parts -/

theorem Ready.normalise {v : Value} (hv : Ready g v) : Ready g v.normalise := by
  refine ⟨hv.1.normalise, ?_⟩
  cases v with
  | number x =>
    simp only [Value.normalise]
    split
    · rfl
    · rfl
  | deferred id => cases hv.2
  | _ => rfl

theorem agree_pure {v : Value} (hv : Ready g v) : Agree g (pure (.done v)) (pure v) := by
  intro w w' _ he
  refine ⟨congrArg _ he, fun u hu => ?_⟩
  cases hu
  exact hv

/-- The operand that a program leaves gives its value. -/
theorem agree_finish (hin : Mirrored g inner tree) (hlang : lang.Obeys g)
    (hadmits : Expr.Admits g lang) {o : Late} (ho : o.Good g lang order) :
    Agree g (Machine.run inner lang depth [] [o.operand])
      (force tree order lang depth o >>= fun v => pure v.normalise) := by
  cases o with
  | known v => exact agree_pure (Ready.normalise ho)
  | later first last =>
    have hcode : Program.Obeys g lang (Expr.part first last) :=
      Expr.part_obeys hadmits (fun a ha => (ho.1 a ha).obeys) ho.2.obeys
    rw [Late.operand, Machine.run_thunk]
    refine Agree.bind (hin.part hlang ho.1 ho.2) (hin.sound.enter hlang hcode) ?_ ?_
    · exact fun frames on => ⟨frames, rfl⟩
    · exact fun v hv => agree_pure hv.normalise

/-- A part is run as the tree evaluator evaluates it. -/
theorem agree_part (hin : Mirrored g inner tree) (hlang : lang.Obeys g)
    (hadmits : Expr.Admits g lang) {first : Option Expr} {last : Expr}
    (hfirst : ∀ a ∈ first, Suitable g lang order a) (hlast : Suitable g lang order last) :
    Agree g (Machine.run inner lang depth (Expr.part first last) [])
      (evalPart tree order lang depth first last) := by
  have hend : Agree g (Machine.run inner lang depth (last.compile ++ []) [])
      (eval tree order lang depth last >>= fun v => pure v.normalise) := by
    rw [eval_bind]
    exact compiles hin hlang hadmits last hlast fun o ho => agree_finish hin hlang hadmits ho
  rw [List.append_nil] at hend
  cases first with
  | none => exact hend
  | some a =>
    have hpart : evalPart tree order lang depth (some a) last =
        eval tree order lang depth a >>= fun _ =>
          eval tree order lang depth last >>= fun v => pure v.normalise := rfl
    rw [hpart, Expr.part, eval_bind]
    refine compiles hin hlang hadmits a (hfirst a rfl) fun o ho => ?_
    rw [Machine.run_cons]
    refine agree_force (d := 0) hin hlang hadmits rfl ho fun v _ => ?_
    have hplan : ∀ scope, Machine.plan lang scope .endStatement [.value v] = .ok (.next []) :=
      fun _ => rfl
    exact agree_next hplan rfl hend

/-! ### Native functions -/

theorem lift_bind {α β : Type} (x : Eval α) (f : α → Eval β) :
    lift (x >>= f) = lift x >>= fun a => lift (f a) := by
  funext w
  rcases hx : x w with ⟨s | a, w₁⟩
  · have hl : lift x w = (.error (.stop s), w₁) := by rw [lift, hx]
    rw [bind_of_error hl, lift, bind_of_error hx]
  · have hl : lift x w = (.ok a, w₁) := by rw [lift, hx]
    rw [bind_of_ok hl, lift, bind_of_ok hx]
    rfl

/-- Evaluations of the machine alone, carried along `do` blocks. -/
theorem mirrors_bind {α β : Type} {good : α → Prop} {x y : Eval α} {f h : α → Eval β}
    (hx : Mirrors g x (lift y)) (hsafe : Safe g good x)
    (hf : ∀ a, good a → Mirrors g (f a) (lift (h a))) :
    Mirrors g (x >>= f) (lift (y >>= h)) := by
  rw [lift_bind]
  exact hx.bind hsafe hf

section

variable (hin : Mirrored g inner tree)

include hin

theorem mapItems_mirrors {f : Function Value} (hf : f.Obeys g) (i : Nat) {items : List Value}
    (hitems : ∀ v ∈ items, v.Obeys g) :
    Mirrors g (Machine.mapItems inner depth f i items)
      (lift (Machine.mapItems tree.calls depth f i items)) := by
  induction items generalizing i with
  | nil => exact mirrors_blind (Blind.pure _)
  | cons x rest ih =>
    obtain ⟨hx, hrest⟩ := List.forall_mem_cons.mp hitems
    have hargs : ∀ v ∈ [x, .number (Float.ofNat i)], v.Obeys g :=
      List.forall_mem_cons.mpr ⟨hx, List.forall_mem_singleton.mpr (.number _)⟩
    refine mirrors_bind (hin.call hf hargs) (hin.sound.call hf hargs) fun y _ => ?_
    exact mirrors_bind (ih (i + 1) hrest) (Machine.mapItems_safe hin.sound hf (i + 1) hrest)
      fun ys _ => mirrors_blind (Blind.pure _)

theorem filterItems_mirrors {f : Function Value} (hf : f.Obeys g) (i : Nat) {items : List Value}
    (hitems : ∀ v ∈ items, v.Obeys g) :
    Mirrors g (Machine.filterItems inner depth f i items)
      (lift (Machine.filterItems tree.calls depth f i items)) := by
  induction items generalizing i with
  | nil => exact mirrors_blind (Blind.pure _)
  | cons x rest ih =>
    obtain ⟨hx, hrest⟩ := List.forall_mem_cons.mp hitems
    have hargs : ∀ v ∈ [x, .number (Float.ofNat i)], v.Obeys g :=
      List.forall_mem_cons.mpr ⟨hx, List.forall_mem_singleton.mpr (.number _)⟩
    refine mirrors_bind (hin.call hf hargs) (hin.sound.call hf hargs) fun y _ => ?_
    exact mirrors_bind (ih (i + 1) hrest) (Machine.filterItems_safe hin.sound hf (i + 1) hrest)
      fun kept _ => mirrors_blind (Blind.pure _)

theorem foldItems_mirrors {f : Function Value} (hf : f.Obeys g) (i : Nat) {acc : Value}
    (hacc : acc.Obeys g) {items : List Value} (hitems : ∀ v ∈ items, v.Obeys g) :
    Mirrors g (Machine.foldItems inner depth f i acc items)
      (lift (Machine.foldItems tree.calls depth f i acc items)) := by
  induction items generalizing i acc with
  | nil => exact mirrors_blind (Blind.pure _)
  | cons x rest ih =>
    obtain ⟨hx, hrest⟩ := List.forall_mem_cons.mp hitems
    have hargs : ∀ v ∈ [acc, x, .number (Float.ofNat i)], v.Obeys g :=
      List.forall_mem_cons.mpr ⟨hacc, List.forall_mem_cons.mpr
        ⟨hx, List.forall_mem_singleton.mpr (.number _)⟩⟩
    exact mirrors_bind (hin.call hf hargs) (hin.sound.call hf hargs) fun y hy =>
      ih (i + 1) hy hrest

theorem traverse_mirrors (t : Traversal) {args : List Value} (hargs : ∀ v ∈ args, v.Obeys g) :
    Mirrors g (Machine.traverse inner depth t args)
      (lift (Machine.traverse tree.calls depth t args)) := by
  have hfound : ∀ name arrayAt, Safe g (fun r => r.1.Obeys g ∧ ∀ v ∈ r.2, v.Obeys g)
      (Eval.ofExcept (Machine.traversalArguments name args arrayAt)) := fun name arrayAt =>
    Keeps.ofExcept (Machine.traversalArguments_meets name hargs arrayAt)
  cases t with
  | map =>
    unfold Machine.traverse
    dsimp only
    split
    · exact mirrors_blind (Blind.pure _)
    · refine mirrors_bind (mirrors_blind (Blind.ofExcept _)) (hfound "map" 1) fun r hr => ?_
      exact mirrors_bind (mapItems_mirrors hin hr.1 0 hr.2)
        (Machine.mapItems_safe hin.sound hr.1 0 hr.2) fun vs _ => mirrors_blind (Blind.pure _)
  | filter =>
    unfold Machine.traverse
    dsimp only
    split
    · exact mirrors_blind (Blind.pure _)
    · refine mirrors_bind (mirrors_blind (Blind.ofExcept _)) (hfound "filter" 1) fun r hr => ?_
      exact mirrors_bind (filterItems_mirrors hin hr.1 0 hr.2)
        (Machine.filterItems_safe hin.sound hr.1 0 hr.2) fun vs _ => mirrors_blind (Blind.pure _)
  | fold =>
    unfold Machine.traverse
    dsimp only
    split
    · exact mirrors_blind (Blind.pure _)
    · refine mirrors_bind (mirrors_blind (Blind.ofExcept _)) (hfound "fold" 2) fun r hr => ?_
      exact foldItems_mirrors hin hr.1 0 (Operation.arg_obeys hargs 1) hr.2

theorem callNative_mirrors {hosts : Hosts} (hhosts : hosts.Sound g) (f : Native)
    {args : List Value} (hargs : ∀ v ∈ args, v.Obeys g) :
    Mirrors g (Machine.callNative inner depth hosts f args)
      (lift (Machine.callNative tree.calls depth hosts f args)) := by
  unfold Machine.callNative
  split
  · exact mirrors_blind (Blind.ofExcept _)
  · next t _ => exact traverse_mirrors hin t hargs
  · exact mirrors_blind (Blind.randomNumber args)
  · next key _ =>
    refine mirrors_bind (mirrors_blind (Blind.note _)) (safe_note _) fun _ _ => ?_
    have hanswer := hhosts key args hargs
    revert hanswer
    cases (hosts key args).answer with
    | value v => exact fun _ => mirrors_blind (Blind.pure v)
    | error e => exact fun _ => mirrors_blind (Blind.fail e)
    | promise p =>
      have hpromise : Blind True (Machine.enterPromise p) :=
        Blind.bind (Blind.defer trivial _) fun _ => Blind.pure _
      exact fun _ => mirrors_blind hpromise
    | call h args' => exact fun ha => hin.call ha.1 ha.2

end

/-! ### Bodies of functions -/

theorem mirrors_inScope {α : Type} {b : Bindings} (hb : Bindings.Obeys g b) {x y : Eval α}
    (h : Mirrors g x (lift y)) : Mirrors g (inScope b x) (lift (inScope b y)) := by
  refine mirrors_lift_iff.mpr fun w w' hw he => ?_
  have hlike := World.erase_eq_iff.mp he
  obtain ⟨hr, hs⟩ := mirrors_lift_iff.mp h { w with scope := b } { w' with scope := b }
    ⟨hb, hw.deferreds⟩ (World.erase_eq_iff.mpr (hlike.rescope b))
  have hinner := World.erase_eq_iff.mp hs
  exact ⟨hr, World.erase_eq_iff.mpr ⟨hlike.scope, hinner.log, hinner.size, hinner.nextId,
    hinner.seed⟩⟩

end

/-- When the sequences of bodies come last: at least where one stands among operands. -/
def Careful (bodyOrder : Option Expr → Expr → Order) : Prop :=
  ∀ first last, bodyOrder first last = .asWritten →
    Expr.orderedOption first = true ∧ last.ordered = true

theorem careful_natural : Careful Order.natural := by
  intro first last h
  unfold Order.natural at h
  split at h
  · next hord => exact Bool.and_eq_true_iff.mp hord
  · cases h

/-- The body of a function that an ordered expression defines is evaluated as it is written. -/
theorem natural_body {body : Expr} (hregular : body.Regular) (hordered : body.ordered = true) :
    ∃ first last, Program.part? body.compile = some (first, last) ∧
      Order.natural first last = .asWritten := by
  have hnone : ∀ a ∈ (none : Option Expr), a.Regular :=
    fun a h => (Option.not_mem_none a h).elim
  obtain ⟨first, last, hread, _, _, _, hfirst, hlast⟩ := Program.part?_part hnone hregular
  refine ⟨first, last, hread, ?_⟩
  rw [Order.natural, hfirst, hlast, hordered]
  rfl

theorem careful_sequencesLast : Careful fun _ _ => .sequencesLast := fun _ _ h => nomatch h

section

variable {c : Prop} {inner : Formula.Engine} {tree : Engine} {depth : Nat}
  {bodyOrder : Option Expr → Expr → Order}

/-- The body of a function is read back as a part that the evaluator's order suits. -/
theorem body_read (hb : Careful bodyOrder) {f : Closure Value} (hf : f.Obeys (.code c)) :
    ∃ first last, Program.part? f.body = some (first, last) ∧ f.body = Expr.part first last ∧
      (∀ a ∈ first, Suitable (.code c) f.language (bodyOrder first last) a) ∧
      Suitable (.code c) f.language (bodyOrder first last) last := by
  obtain ⟨⟨first, last, hfirst, hlast, hbody⟩, hcode, _, _⟩ := hf
  obtain ⟨first', last', hread, hfirst', hlast', hpart, _⟩ := Program.part?_part hfirst hlast
  rw [hbody, ← hpart] at hcode
  obtain ⟨hfirstObeys, hlastObeys⟩ := Expr.obeys_of_part hfirst' hlast' hcode
  refine ⟨first', last', by rw [hbody, hread], by rw [hbody, hpart], fun a ha => ?_, ?_⟩
  · refine ⟨hfirstObeys a ha, fun hw => ?_⟩
    have hord := (hb first' last' hw).1
    cases ha
    exact hord
  · exact ⟨hlastObeys, fun hw => (hb first' last' hw).2⟩

theorem enterBody_mirrors (hin : Mirrored (.code c) inner tree) (hb : Careful bodyOrder)
    {f : Closure Value} (hf : f.Obeys (.code c)) {scope : Bindings}
    (hscope : Bindings.Obeys (.code c) scope) :
    Mirrors (.code c) (Machine.enterBody inner depth f scope)
      (lift (evalBody bodyOrder tree depth f scope)) := by
  obtain ⟨first, last, hread, hbody, hfirst, hlast⟩ := body_read hb hf
  obtain ⟨_, _, _, hlang⟩ := hf
  refine mirrors_inScope hscope (mirrors_lift_iff.mpr fun w w' hw he => ?_)
  have hagree : Agree (.code c) (inner.enter f.language depth (Expr.part first last))
      (tree.part (bodyOrder first last) f.language depth first last) :=
    hin.part hlang hfirst hlast
  obtain ⟨hout, -⟩ := hagree w w' hw he
  rw [hread, hbody]
  dsimp only
  rcases hx : inner.enter f.language depth (Expr.part first last) w with ⟨s | p, w₁⟩ <;>
    rcases hy : tree.part (bodyOrder first last) f.language depth first last w' with ⟨r, w₁'⟩ <;>
    rw [hx, hy] at hout
  · obtain ⟨rfl, hs⟩ : r = .error (.stop s) ∧ w₁'.erase = w₁.erase := Prod.mk.inj hout
    rw [bind_of_error hx]
    exact ⟨rfl, hs⟩
  · rw [bind_of_ok hx]
    cases p with
    | done v =>
      obtain ⟨rfl, hs⟩ : r = .ok v ∧ w₁'.erase = w₁.erase := Prod.mk.inj hout
      exact ⟨rfl, hs⟩
    | waiting frames on =>
      obtain ⟨rfl, hs⟩ : r = .error (.waiting on) ∧ w₁'.erase = w₁.erase := Prod.mk.inj hout
      have hlike := World.erase_eq_iff.mp hs
      refine ⟨congrArg (fun n => Except.ok (Value.deferred n)) (hlike.size trivial), ?_⟩
      exact World.erase_eq_iff.mpr (hlike.push _ _)

/-- Calls go as the tree evaluator has them. -/
theorem call_mirrors (hin : Mirrored (.code c) inner tree) (hb : Careful bodyOrder) {hosts : Hosts}
    (hhosts : hosts.Sound (.code c)) {f : Function Value} (hf : f.Obeys (.code c))
    {args : List Value} (hargs : ∀ v ∈ args, v.Obeys (.code c)) :
    Mirrors (.code c) (Machine.call inner depth hosts f args)
      (lift (call bodyOrder tree depth hosts f args)) := by
  cases hf with
  | native _ => exact callNative_mirrors hin hhosts _ hargs
  | @defined f hf =>
    unfold Machine.call call
    dsimp only
    split
    · exact enterBody_mirrors hin hb hf (Machine.definedScope_obeys hf hargs)
    · exact mirrors_blind (Blind.fail _)
  | @prepared f hf =>
    have hcaptured : Bindings.Obeys (.code c) f.captured := by
      obtain ⟨_, _, hcaptured, _⟩ := hf
      exact hcaptured
    exact enterBody_mirrors hin hb hf
      (Bindings.Obeys.update hcaptured fun p hp => hargs p.2 (List.of_mem_zip hp).2)

/-- Every level of the machine's engine does what that level of the evaluator's does. -/
theorem engine_mirrored (hb : Careful bodyOrder) {hosts : Hosts} (hhosts : hosts.Sound (.code c))
    (fuel : Nat) :
    Mirrored (.code c) (Machine.engine hosts fuel) (engine bodyOrder hosts fuel) := by
  induction fuel with
  | zero =>
    refine ⟨Machine.engine_sound (Guard.code_lawful c) hhosts 0, fun _ _ _ => ?_, fun _ _ => ?_⟩
    · exact fun _ _ _ he => ⟨congrArg _ he, fun _ hv => by cases hv⟩
    · exact mirrors_blind Blind.exhausted
  | succ fuel ih =>
    refine ⟨Machine.engine_sound (Guard.code_lawful c) hhosts (fuel + 1), ?_, ?_⟩
    · exact fun hlang hfirst hlast =>
        agree_part ih hlang (Expr.admits_code c _) hfirst hlast
    · exact fun hf hargs => call_mirrors ih hb hhosts hf hargs

end

end Tree

/-! ### Whole programs -/

open Formula.Tree

variable {lang : Language Value} {hosts : Hosts} {source : String} {e : Expr} {w : World}

/-- A program in which no sequence of statements is an operand among others is evaluated as it is
written. -/
theorem evaluate_asWritten (hlang : lang.Extended (.code False)) (hhosts : hosts.Sound (.code False))
    (hw : w.Sound (.code False)) (he : parseExpr lang source = .ok e) (hordered : e.ordered = true)
    (fuel : Nat) :
    observed (e.evaluate hosts.traced fuel lang w) =
      outcome ((Tree.engine .natural hosts.traced fuel).part .asWritten lang 0 none e w) := by
  have hin := engine_mirrored careful_natural hhosts.traced fuel
  have hsuit : Suitable (.code False) lang .asWritten e :=
    ⟨parseExpr_obeys hlang he, fun _ => hordered⟩
  have hagree : Agree (.code False) (e.evaluate hosts.traced fuel lang)
      ((Tree.engine .natural hosts.traced fuel).part .asWritten lang 0 none e) :=
    hin.part hlang.obeys (fun a h => (Option.not_mem_none a h).elim) hsuit
  exact (hagree w w hw rfl).1.symm

/-- A host whose functions note their arguments and give the first one. -/
def notingHosts : Hosts := fun _ args => ⟨[.array args], .value (Operation.arg args 0)⟩

def notingLanguage : Language Value := (Language.ofOptions 0 {}).add .functions "note" 100 "note"

/-- A sequence as a body and as a branch, beside calls of the host. -/
def notingSource : String :=
  "f(x) = (y = note(x); y); note('a') == f('a') ? (x = note('b'); x || y) : note('c')"

theorem noting_asWritten : ∃ e, parseExpr notingLanguage notingSource = .ok e ∧
    observed (e.evaluate notingHosts.traced 50 notingLanguage (World.start [] 101)) =
      outcome ((Tree.engine .natural notingHosts.traced 50).part .asWritten notingLanguage 0 none e
        (World.start [] 101)) := by
  have hparses : (parseExpr notingLanguage notingSource).toOption.map Expr.ordered = some true := by
    decide +kernel
  cases he : parseExpr notingLanguage notingSource with
  | error _ =>
    rw [he] at hparses
    cases hparses
  | ok e =>
    have hordered : e.ordered = true := by
      rw [he] at hparses
      exact Option.some.inj hparses
    have hlang : notingLanguage.Extended (.code False) := .add _ _ _ _ (.standard 0 {})
    have hhosts : notingHosts.Sound (.code False) := fun _ _ hargs => Operation.arg_obeys hargs 0
    have hstart : (World.start [] 101).Sound (.code False) :=
      ⟨List.forall_mem_nil _, fun d hd => (Array.not_mem_empty d hd).elim⟩
    exact ⟨e, rfl, evaluate_asWritten hlang hhosts hstart he hordered 50⟩

/-- A program is evaluated with the sequences among operands after the other operands. -/
theorem evaluate_sequencesLast (hlang : lang.Extended (.code False))
    (hhosts : hosts.Sound (.code False)) (hw : w.Sound (.code False))
    (he : parseExpr lang source = .ok e) (fuel : Nat) :
    observed (e.evaluate hosts.traced fuel lang w) =
      outcome ((Tree.engine (fun _ _ => .sequencesLast) hosts.traced fuel).part .sequencesLast lang
        0 none e w) := by
  have hin := engine_mirrored careful_sequencesLast hhosts.traced fuel
  have hsuit : Suitable (.code False) lang .sequencesLast e :=
    ⟨parseExpr_obeys hlang he, fun h => by cases h⟩
  have hagree : Agree (.code False) (e.evaluate hosts.traced fuel lang)
      ((Tree.engine (fun _ _ => .sequencesLast) hosts.traced fuel).part .sequencesLast lang 0
        none e) :=
    hin.part hlang.obeys (fun a h => (Option.not_mem_none a h).elim) hsuit
  exact (hagree w w hw rfl).1.symm

/-- An array whose first item assigns what its second item reads. -/
def assigningSource : String := "[(x = 'a'; x), x]"

def assigningWorld : World := World.start [("x", .string "b")] 101

theorem assigning_sequencesLast : ∃ e, parseExpr notingLanguage assigningSource = .ok e ∧
    observed (e.evaluate notingHosts.traced 50 notingLanguage assigningWorld) =
      outcome ((Tree.engine (fun _ _ => .sequencesLast) notingHosts.traced 50).part .sequencesLast
        notingLanguage 0 none e assigningWorld) := by
  have hparses : (parseExpr notingLanguage assigningSource).isOk = true := by decide +kernel
  cases he : parseExpr notingLanguage assigningSource with
  | error _ =>
    rw [he] at hparses
    cases hparses
  | ok e =>
    have hlang : notingLanguage.Extended (.code False) := .add _ _ _ _ (.standard 0 {})
    have hhosts : notingHosts.Sound (.code False) := fun _ _ hargs => Operation.arg_obeys hargs 0
    have hscope : Bindings.Obeys (.code False) [("x", .string "b")] :=
      List.forall_mem_singleton.mpr (.string "b")
    have hw : assigningWorld.Sound (.code False) :=
      ⟨hscope, fun d hd => (Array.not_mem_empty d hd).elim⟩
    exact ⟨e, rfl, evaluate_sequencesLast hlang hhosts hw he 50⟩

/-- The text of the value that an evaluation gives. -/
def Tree.shown (r : Except Halt Value × World) : Option String :=
  match r.1 with
  | .ok v => some v.text
  | .error _ => none

/-- The second item does not see what the first one assigns, as it would in the order in which
they are written. -/
theorem assigning_not_asWritten : ∃ e, parseExpr notingLanguage assigningSource = .ok e ∧
    shown (observed (e.evaluate notingHosts 50 notingLanguage assigningWorld)) = some "a,b" ∧
    shown ((Tree.engine (fun _ _ => .asWritten) notingHosts 50).part .asWritten notingLanguage 0
      none e assigningWorld) = some "a,a" := by
  have hshown : (parseExpr notingLanguage assigningSource).toOption.map (fun e =>
      (shown (observed (e.evaluate notingHosts 50 notingLanguage assigningWorld)),
        shown ((Tree.engine (fun _ _ => .asWritten) notingHosts 50).part .asWritten notingLanguage
          0 none e assigningWorld))) = some (some "a,b", some "a,a") := by
    decide +kernel
  cases he : parseExpr notingLanguage assigningSource with
  | error _ =>
    rw [he] at hshown
    cases hshown
  | ok e =>
    rw [he] at hshown
    obtain ⟨hmachine, htree⟩ := Prod.mk.inj (Option.some.inj hshown)
    exact ⟨e, rfl, hmachine, htree⟩

end Formula

import Formula.Proofs.Depth.Watched
import Formula.Proofs.Machine.Safety

/-!
# Watched runs and their limit

A watched run notes the marks of its calls and nothing else; it is compared with the run under a
host that may note and promise what it likes. The two do the same, and where more calls are active
than the one limit that all languages have, the outcome is the error that names the limit.
-/

namespace Formula

/-! ### Hosts that note nothing -/

/-- The promise without the host's notes. -/
def Promise.silent : Promise → Promise
  | .value v => .value v
  | .error e => .error e
  | .noting _ next => next.silent
  | .nested p => .nested p.silent

def Answer.silent : Answer → Answer
  | .promise p => .promise p.silent
  | answer => answer

/-- The host without its notes. -/
def Hosts.silent (hosts : Hosts) : Hosts := fun key args => ⟨[], (hosts key args).answer.silent⟩

def Deferred.silent : Deferred → Deferred
  | .promised p => .promised p.silent
  | d => d

/-- The world in which nothing is noted and nothing that is promised will be. -/
def World.silent (w : World) : World :=
  { w with log := [], deferreds := w.deferreds.map Deferred.silent }

/-- A world is another one, whatever has been noted and will be noted. -/
structure World.Shadows (w w' : World) : Prop where
  scope : w.scope = w'.scope
  deferreds : w.deferreds = w'.deferreds.map Deferred.silent
  nextId : w.nextId = w'.nextId
  seed : w.seed = w'.seed

namespace World.Shadows

variable {w w' : World}

theorem silent (w : World) : w.silent.Shadows w := ⟨rfl, rfl, rfl, rfl⟩

theorem relog (h : w.Shadows w') (log log' : List Value) :
    World.Shadows { w with log := log } { w' with log := log' } :=
  ⟨h.scope, h.deferreds, h.nextId, h.seed⟩

theorem rescope (h : w.Shadows w') (b : Bindings) :
    World.Shadows { w with scope := b } { w' with scope := b } :=
  ⟨rfl, h.deferreds, h.nextId, h.seed⟩

theorem push (h : w.Shadows w') (d : Deferred) :
    World.Shadows { w with deferreds := w.deferreds.push d.silent }
      { w' with deferreds := w'.deferreds.push d } := by
  refine ⟨h.scope, ?_, h.nextId, h.seed⟩
  show w.deferreds.push d.silent = (w'.deferreds.push d).map Deferred.silent
  rw [Array.map_push, h.deferreds]

theorem size (h : w.Shadows w') : w.deferreds.size = w'.deferreds.size := by
  rw [h.deferreds, Array.size_map]

theorem entry (h : w.Shadows w') (id : Nat) :
    w.deferreds[id]? = (w'.deferreds[id]?).map Deferred.silent := by
  rw [h.deferreds, Array.getElem?_map]

theorem record (h : w.Shadows w') (id : Nat) (r : Except EvalError Value) :
    (w.record id r).Shadows (w'.record id r) := by
  refine ⟨h.scope, ?_, h.nextId, h.seed⟩
  show w.deferreds.setIfInBounds id (.settled r) =
    (w'.deferreds.setIfInBounds id (.settled r)).map Deferred.silent
  rw [Array.map_setIfInBounds, h.deferreds]
  rfl

end World.Shadows

/-- Functions whose languages have one limit of the call depth. -/
def Guard.limited (d : Nat) : Guard where
  native _ := True
  body lang _ := lang.options.maxCallDepth = d
  total := False

theorem Guard.limited_lawful (d : Nat) : (Guard.limited d).Lawful := fun ht => ht.elim

/-! ### Watched evaluations -/

namespace Eval

variable {α β : Type}

/-- A watched evaluation and the same with notes of the host. Where more calls are active than the
limit `d` allows, the outcome is the error that names the limit. -/
def Shadowed (d active : Nat) (x y : Eval α) : Prop :=
  ∀ w w', w'.Sound (.limited d) → w.Shadows w' →
    (x w).1 = (y w').1 ∧ (x w).2.Shadows (y w').2 ∧
      ∃ marks, Nested marks ∧ (x w).2.log = w.log ++ marks ∧
        (d < peak active marks → (y w').1 = .error (.error (.callDepth d)))

namespace Shadowed

variable {d active : Nat}

/-- Evaluations without calls. -/
theorem quiet {x y : Eval α} (hd : active ≤ d)
    (h : ∀ w w', w.Shadows w' →
      (x w).1 = (y w').1 ∧ (x w).2.Shadows (y w').2 ∧ (x w).2.log = w.log) :
    Shadowed d active x y := by
  intro w w' _ hw
  obtain ⟨hout, hworld, hlog⟩ := h w w' hw
  refine ⟨hout, hworld, [], .nil, by rw [hlog, List.append_nil], fun hlt => ?_⟩
  exact absurd hd (Nat.not_le.mpr hlt)

theorem pure (hd : active ≤ d) (a : α) : Shadowed d active (Pure.pure a) (Pure.pure a) :=
  quiet hd fun _ _ hw => ⟨rfl, hw, rfl⟩

theorem fail (hd : active ≤ d) (e : EvalError) :
    Shadowed d active (Eval.fail e : Eval α) (Eval.fail e) := quiet hd fun _ _ hw => ⟨rfl, hw, rfl⟩

theorem exhausted (hd : active ≤ d) :
    Shadowed d active (Eval.exhausted : Eval α) Eval.exhausted :=
  quiet hd fun _ _ hw => ⟨rfl, hw, rfl⟩

theorem ofExcept (hd : active ≤ d) (r : Except EvalError α) :
    Shadowed d active (Eval.ofExcept r) (Eval.ofExcept r) := by
  cases r with
  | error e => exact fail hd e
  | ok a => exact pure hd a

theorem bind {good : α → Prop} {x y : Eval α} {f g : α → Eval β} (hxy : Shadowed d active x y)
    (hs : Safe (.limited d) good y) (hfg : ∀ a, good a → Shadowed d active (f a) (g a)) :
    Shadowed d active (x >>= f) (y >>= g) := by
  intro w w' hsound hw
  obtain ⟨hout, hworld, marks, hnested, hlog, hdeep⟩ := hxy w w' hsound hw
  obtain ⟨hsound₁, hgood⟩ := hs w' hsound
  rcases hx : x w with ⟨o, w₁⟩
  rcases hy : y w' with ⟨o', w₁'⟩
  rw [hx] at hout hworld hlog
  rw [hy] at hout hworld hdeep hsound₁ hgood
  obtain rfl : o = o' := hout
  cases o with
  | error s =>
    rw [bind_of_error hx, bind_of_error hy]
    exact ⟨rfl, hworld, marks, hnested, hlog, fun hlt =>
      congrArg Except.error (Except.error.inj (hdeep hlt))⟩
  | ok a =>
    rw [bind_of_ok hx, bind_of_ok hy]
    obtain ⟨hout₂, hworld₂, more, hnested₂, hlog₂, hdeep₂⟩ := hfg a hgood w₁ w₁' hsound₁ hworld
    refine ⟨hout₂, hworld₂, marks ++ more, hnested.append hnested₂, ?_, fun hlt => ?_⟩
    · rw [hlog₂, hlog, List.append_assoc]
    · rw [hnested.peak_append] at hlt
      have hallowed : ¬d < peak active marks := fun h => by cases hdeep h
      exact hdeep₂ (by omega)

/-! ### The state -/

theorem scope (hd : active ≤ d) : Shadowed d active Eval.scope Eval.scope :=
  quiet hd fun _ _ hw => ⟨congrArg Except.ok hw.scope, hw, rfl⟩

theorem setScope (hd : active ≤ d) (b : Bindings) :
    Shadowed d active (Eval.setScope b) (Eval.setScope b) :=
  quiet hd fun _ _ hw => ⟨rfl, hw.rescope b, rfl⟩

theorem freshId (hd : active ≤ d) : Shadowed d active Eval.freshId Eval.freshId :=
  quiet hd fun _ _ hw => ⟨congrArg Except.ok hw.nextId,
    ⟨hw.scope, hw.deferreds, congrArg (· + 1) hw.nextId, hw.seed⟩, rfl⟩

theorem random (hd : active ≤ d) : Shadowed d active Eval.random Eval.random := by
  -- the seed is generalised so that nothing computes the next one
  have hreseed : ∀ {w w' : World} (x : Float) (seed : UInt64), w.Shadows w' →
      (Except.ok x : Except (Stop EvalError) Float) = .ok x ∧
        World.Shadows { w with seed } { w' with seed } ∧ ({ w with seed } : World).log = w.log :=
    fun _ _ hw => ⟨rfl, ⟨hw.scope, hw.deferreds, hw.nextId, rfl⟩, rfl⟩
  refine quiet hd fun w w' hw => ?_
  rw [random_eq, random_eq, hw.seed]
  exact hreseed _ _ hw

theorem defer (hd : active ≤ d) (entry : Deferred) :
    Shadowed d active (Eval.defer entry.silent) (Eval.defer entry) :=
  quiet hd fun _ _ hw => ⟨congrArg Except.ok hw.size, hw.push entry, rfl⟩

theorem note (hd : active ≤ d) (entries : List Value) :
    Shadowed d active (Eval.note []) (Eval.note entries) :=
  quiet hd fun _ _ hw => ⟨rfl, hw.relog _ _, List.append_nil _⟩

theorem assign (hd : active ≤ d) (path : String) (v : Value) :
    Shadowed d active (Eval.assign path v) (Eval.assign path v) :=
  bind (scope hd) safe_scope fun _ _ => bind (ofExcept hd _)
    (Keeps.ofExcept ((Meets.any _).weaken fun _ _ ht => ht.elim)) fun b _ => setScope hd b

theorem inScope (b : Bindings) {x y : Eval α} (hb : Bindings.Obeys (.limited d) b)
    (hxy : Shadowed d active x y) :
    Shadowed d active (Eval.inScope b x) (Eval.inScope b y) := by
  intro w w' hsound hw
  obtain ⟨hout, hworld, hmarks⟩ := hxy { w with scope := b } { w' with scope := b }
    ⟨hb, hsound.deferreds⟩ (hw.rescope b)
  refine ⟨hout, ⟨hw.scope, hworld.deferreds, hworld.nextId, hworld.seed⟩, hmarks⟩

/-! ### Calls -/

/-- A call that is allowed: one more call is active in what it does. -/
theorem watched {x y : Eval α} (hxy : Shadowed d (active + 1) x y) :
    Shadowed d active (Machine.watched x) y := by
  intro w w' hsound hw
  obtain ⟨hout, hworld, marks, hnested, hlog, hdeep⟩ :=
    hxy { w with log := w.log ++ [calling] } w' hsound (hw.relog _ w'.log)
  refine ⟨hout, hworld.relog _ _, calling :: marks ++ [called], hnested.single, ?_, fun hlt => ?_⟩
  · show (x { w with log := w.log ++ [calling] }).2.log ++ [called] = _
    rw [hlog]
    simp
  · rw [hnested.peak_single] at hlt
    exact hdeep hlt

/-- A call that is refused. -/
theorem refused : Shadowed d active (Machine.watched (Eval.fail (.callDepth d)))
    (Eval.fail (.callDepth d) : Eval α) := by
  intro w w' _ hw
  refine ⟨rfl, hw.relog _ _, calling :: [] ++ [called], Nested.nil.single, ?_, fun _ => rfl⟩
  exact List.append_assoc w.log [calling] [called]

end Shadowed

end Eval

/-- An engine with watched calls and one without, which do the same. -/
structure Engine.Shadowed (d : Nat) (inner inner' : Engine) : Prop where
  sound : inner'.Sound (.limited d)
  enter : ∀ {lang depth code}, depth ≤ d → lang.Obeys (.limited d) →
    Program.Obeys (.limited d) lang code →
      Eval.Shadowed d depth (inner.enter lang depth code) (inner'.enter lang depth code)
  call : ∀ {depth f args}, depth ≤ d → f.Obeys (.limited d) →
    (∀ v ∈ args, v.Obeys (.limited d)) →
      Eval.Shadowed d depth (inner.call depth f args) (inner'.call depth f args)

namespace Machine

open Eval

variable {d depth : Nat} {inner inner' : Engine} {lang : Language Value} {stack : List Operand}

section

variable (hin : inner.Shadowed d inner') (hd : depth ≤ d)

include hin hd

/-! ### Running -/

theorem resolve_shadowed (hlang : lang.Obeys (.limited d)) {o : Operand}
    (ho : o.Obeys (.limited d) lang) :
    Shadowed d depth (resolve inner lang depth o) (resolve inner' lang depth o) := by
  cases o with
  | value v => exact .pure hd _
  | thunk code => exact hin.enter hd hlang ho

theorem force_shadowed (hlang : lang.Obeys (.limited d)) (ds : List Nat)
    (hs : Stack.Obeys (.limited d) lang stack) :
    Shadowed d depth (force inner lang depth ds stack) (force inner' lang depth ds stack) := by
  induction ds generalizing stack with
  | nil => exact .pure hd _
  | cons c ds ih =>
    cases hc : stack[c]? with
    | none =>
      simp only [force, hc]
      exact .fail hd _
    | some o =>
      cases o with
      | value v =>
        cases v with
        | deferred id =>
          simp only [force, hc]
          exact .pure hd _
        | _ =>
          simp only [force, hc]
          exact ih hs
      | thunk code =>
        have hcode : Program.Obeys (.limited d) lang code := hs _ (List.mem_of_getElem? hc)
        rw [force_thunk hc, force_thunk hc]
        refine .bind (hin.enter hd hlang hcode) (hin.sound.enter hlang hcode) fun p hp => ?_
        cases p with
        | done v => exact ih (hs.set c hp)
        | waiting frames on => exact .pure hd _

omit hin in
theorem use_shadowed (use : Use) (v : Value) (hv : v.Obeys (.limited d)) :
    Shadowed d depth (use.apply v) (use.apply v) := by
  cases use with
  | keep => exact .pure hd _
  | truth => exact .pure hd _
  | assign path => exact .bind (.assign hd path v) (safe_assign path hv) fun _ _ => .pure hd _

omit hin in
theorem define_shadowed (name : String) (params : List String) (body : Program Value) :
    Shadowed d depth (define lang name params body) (define lang name params body) := by
  have hdefine : ∀ (f : Value) (w : World), f = .function (.defined
      ⟨w.nextId, name, params, body, w.scope, lang⟩) → define lang name params body w =
        (.ok f, { w with scope := Record.insert w.scope name f, nextId := w.nextId + 1 }) := by
    rintro _ w rfl
    rfl
  refine .quiet hd fun w w' hw => ?_
  rw [hdefine _ w rfl, hdefine _ w' rfl, hw.scope, hw.nextId]
  exact ⟨rfl, ⟨rfl, hw.deferreds, rfl, hw.seed⟩, rfl⟩

theorem perform_shadowed (hlang : lang.Obeys (.limited d)) {p : Plan}
    (hp : p.Obeys (.limited d) lang) :
    Shadowed d depth (perform inner lang depth p) (perform inner' lang depth p) := by
  cases p with
  | next stack => exact .pure hd _
  | resolve o use stack =>
    refine .bind (resolve_shadowed hin hd hlang hp.1) (resolve_safe hin.sound hlang hp.1)
      fun r hr => ?_
    cases r with
    | done v =>
      exact .bind (use_shadowed hd use v hr) (use_safe use hr) fun u _ => .pure hd _
    | waiting frames on => exact .pure hd _
  | call f args stack =>
    exact .bind (hin.call hd hp.1 hp.2.1) (hin.sound.call hp.1 hp.2.1) fun v _ => .pure hd _
  | define name params body stack =>
    exact .bind (define_shadowed hd name params body) (define_safe hlang hp.1) fun v _ => .pure hd _

theorem step_shadowed (hlang : lang.Obeys (.limited d)) {i : Instruction Value}
    (hi : i.Obeys (.limited d) lang) (hs : Stack.Obeys (.limited d) lang stack) :
    Shadowed d depth (step inner lang depth i stack) (step inner' lang depth i stack) := by
  refine .bind (.scope hd) safe_scope fun scope hscope => ?_
  have hplan : Meets (Plan.Obeys (.limited d) lang) (Guard.limited d).Mild
      (plan lang scope i stack) := (plan_obeys hlang hscope hi hs).weaken fun _ _ ht => ht.elim
  exact .bind (.ofExcept hd _) (Keeps.ofExcept hplan) fun p hp => perform_shadowed hin hd hlang hp

theorem finish_shadowed (hlang : lang.Obeys (.limited d))
    (hs : Stack.Obeys (.limited d) lang stack) :
    Shadowed d depth (finish inner lang depth stack) (finish inner' lang depth stack) := by
  match stack, hs with
  | [], _ => exact .fail hd _
  | [o], hs =>
    refine .bind (resolve_shadowed hin hd hlang hs.head) (resolve_safe hin.sound hlang hs.head)
      fun p _ => ?_
    cases p with
    | done v => exact .pure hd _
    | waiting frames on => exact .pure hd _
  | _ :: _ :: _, _ => exact .fail hd _

theorem run_shadowed (hlang : lang.Obeys (.limited d)) {code : Program Value}
    (hcode : ∀ i ∈ code, i.Obeys (.limited d) lang) (hs : Stack.Obeys (.limited d) lang stack) :
    Shadowed d depth (run inner lang depth code stack) (run inner' lang depth code stack) := by
  induction code generalizing stack with
  | nil => exact finish_shadowed hin hd hlang hs
  | cons i rest ih =>
    obtain ⟨hi, hrest⟩ := List.forall_mem_cons.mp hcode
    have hforce : Safe (.limited d) (Forced.Sound (.limited d) lang i (needed i) [] [])
        (force inner' lang depth (needed i) stack) :=
      force_safe hin.sound hlang (fun _ h => h) [] hs fun ht => ht.elim
    rw [run_cons, run_cons]
    refine .bind (force_shadowed hin hd hlang _ hs) hforce fun r hr => ?_
    cases r with
    | suspended d frames on stack => exact .pure hd _
    | ready stack =>
      have hstep : Safe (.limited d) (Step.Sound (.limited d) lang [])
          (step inner' lang depth i stack) :=
        step_safe hin.sound hlang hi hr.1 fun ht => (ht.elim : _ ∧ planned i [] = some [])
      refine .bind (step_shadowed hin hd hlang hi hr.1) hstep fun p hp => ?_
      unfold afterStep
      split
      · exact .pure hd _
      · exact .pure hd _
      · exact ih hrest hp.1

/-! ### Frames -/

theorem proceed_shadowed (hlang : lang.Obeys (.limited d)) {f : Frame}
    (hf : f.Sound (.limited d) lang) {v : Value} (hv : v.Obeys (.limited d)) :
    Shadowed d depth (proceed inner lang depth f v) (proceed inner' lang depth f v) := by
  cases f with
  | fill c stack code => exact run_shadowed hin hd hlang hf.1.2 (hf.1.1.set c hv)
  | push stack code => exact run_shadowed hin hd hlang hf.1.2 (hf.1.1.cons hv)
  | truth => exact .pure hd _
  | assign path => exact .bind (.assign hd path v) (safe_assign path hv) fun _ _ => .pure hd _

theorem resume_shadowed (hlang : lang.Obeys (.limited d)) {frames : List Frame}
    (hframes : ∀ f ∈ frames, f.Sound (.limited d) lang) {v : Value} (hv : v.Obeys (.limited d)) :
    Shadowed d depth (resume inner lang depth frames v) (resume inner' lang depth frames v) := by
  induction frames generalizing v with
  | nil => exact .pure hd _
  | cons f rest ih =>
    obtain ⟨hf, hrest⟩ := List.forall_mem_cons.mp hframes
    rw [resume_cons, resume_cons]
    refine .bind (proceed_shadowed hin hd hlang hf hv) (proceed_safe hin.sound hlang hf hv)
      fun p hp => ?_
    cases p with
    | done v => exact ih hrest hp
    | waiting frames on => exact .pure hd _

/-! ### Calls -/

section

variable {f : Function Value} {args items : List Value}

theorem mapItems_shadowed (hf : f.Obeys (.limited d)) (i : Nat)
    (hitems : ∀ v ∈ items, v.Obeys (.limited d)) :
    Shadowed d depth (mapItems inner depth f i items) (mapItems inner' depth f i items) := by
  induction items generalizing i with
  | nil => exact .pure hd _
  | cons x rest ih =>
    obtain ⟨hx, hrest⟩ := List.forall_mem_cons.mp hitems
    have hargs : ∀ v ∈ [x, .number (Float.ofNat i)], v.Obeys (.limited d) :=
      List.forall_mem_cons.mpr ⟨hx, List.forall_mem_singleton.mpr (.number _)⟩
    exact .bind (hin.call hd hf hargs) (hin.sound.call hf hargs) fun y _ =>
      .bind (ih (i + 1) hrest) (mapItems_safe hin.sound hf (i + 1) hrest) fun _ _ => .pure hd _

theorem filterItems_shadowed (hf : f.Obeys (.limited d)) (i : Nat)
    (hitems : ∀ v ∈ items, v.Obeys (.limited d)) :
    Shadowed d depth (filterItems inner depth f i items) (filterItems inner' depth f i items) := by
  induction items generalizing i with
  | nil => exact .pure hd _
  | cons x rest ih =>
    obtain ⟨hx, hrest⟩ := List.forall_mem_cons.mp hitems
    have hargs : ∀ v ∈ [x, .number (Float.ofNat i)], v.Obeys (.limited d) :=
      List.forall_mem_cons.mpr ⟨hx, List.forall_mem_singleton.mpr (.number _)⟩
    exact .bind (hin.call hd hf hargs) (hin.sound.call hf hargs) fun y _ =>
      .bind (ih (i + 1) hrest) (filterItems_safe hin.sound hf (i + 1) hrest) fun _ _ => .pure hd _

theorem foldItems_shadowed (hf : f.Obeys (.limited d)) (i : Nat) {acc : Value}
    (hacc : acc.Obeys (.limited d)) (hitems : ∀ v ∈ items, v.Obeys (.limited d)) :
    Shadowed d depth (foldItems inner depth f i acc items)
      (foldItems inner' depth f i acc items) := by
  induction items generalizing i acc with
  | nil => exact .pure hd _
  | cons x rest ih =>
    obtain ⟨hx, hrest⟩ := List.forall_mem_cons.mp hitems
    have hargs : ∀ v ∈ [acc, x, .number (Float.ofNat i)], v.Obeys (.limited d) :=
      List.forall_mem_cons.mpr
        ⟨hacc, List.forall_mem_cons.mpr ⟨hx, List.forall_mem_singleton.mpr (.number _)⟩⟩
    exact .bind (hin.call hd hf hargs) (hin.sound.call hf hargs) fun y hy => ih (i + 1) hy hrest

theorem traverse_shadowed (t : Traversal) (hargs : ∀ v ∈ args, v.Obeys (.limited d)) :
    Shadowed d depth (traverse inner depth t args) (traverse inner' depth t args) := by
  cases t with
  | map =>
    simp only [traverse]
    split
    · exact .pure hd _
    · refine .bind (.ofExcept hd _)
        (Keeps.ofExcept (traversalArguments_meets "map" hargs 1)) fun r hr => ?_
      exact .bind (mapItems_shadowed hin hd hr.1 0 hr.2) (mapItems_safe hin.sound hr.1 0 hr.2)
        fun _ _ => .pure hd _
  | filter =>
    simp only [traverse]
    split
    · exact .pure hd _
    · refine .bind (.ofExcept hd _)
        (Keeps.ofExcept (traversalArguments_meets "filter" hargs 1)) fun r hr => ?_
      exact .bind (filterItems_shadowed hin hd hr.1 0 hr.2)
        (filterItems_safe hin.sound hr.1 0 hr.2) fun _ _ => .pure hd _
  | fold =>
    simp only [traverse]
    split
    · exact .pure hd _
    · refine .bind (.ofExcept hd _)
        (Keeps.ofExcept (traversalArguments_meets "fold" hargs 2)) fun r hr => ?_
      exact foldItems_shadowed hin hd hr.1 0 (Operation.arg_obeys hargs 1) hr.2

omit hin in
theorem enterPromise_shadowed (p : Promise) :
    Shadowed d depth (enterPromise p.silent) (enterPromise p) :=
  .quiet hd fun _ _ hw => ⟨congrArg (fun id => Except.ok (Value.deferred id)) hw.size,
    hw.push (.promised p), rfl⟩

theorem callNative_shadowed {hosts : Hosts} (hhosts : hosts.Sound (.limited d)) (g : Native)
    (hargs : ∀ v ∈ args, v.Obeys (.limited d)) :
    Shadowed d depth (callNative inner depth hosts.silent g args)
      (callNative inner' depth hosts g args) := by
  unfold callNative
  cases g.action with
  | operation op => exact .ofExcept hd _
  | traversal t => exact traverse_shadowed hin hd t hargs
  | random => exact .bind (.random hd) safe_random fun _ _ => .pure hd _
  | host key =>
    refine .bind (.note hd _) (safe_note _) fun _ _ => ?_
    have hanswer := hhosts key args hargs
    dsimp only [Hosts.silent]
    revert hanswer
    cases (hosts key args).answer with
    | value v => exact fun _ => .pure hd v
    | error e => exact fun _ => .fail hd e
    | promise p => exact fun _ => enterPromise_shadowed hd p
    | call h args' => exact fun ha => hin.call hd ha.1 ha.2

theorem enterBody_shadowed {c : Closure Value} (hc : c.Obeys (.limited d)) {scope : Bindings}
    (hscope : Bindings.Obeys (.limited d) scope) :
    Shadowed d depth (enterBody inner depth c scope) (enterBody inner' depth c scope) := by
  obtain ⟨hbody, hcode, _, hlang⟩ := hc
  rw [enterBody_eq, enterBody_eq]
  refine .inScope scope hscope (.bind (hin.enter hd hlang ⟨hbody, hcode⟩)
    (hin.sound.enter hlang ⟨hbody, hcode⟩) fun p hp => ?_)
  cases p with
  | done v => exact .pure hd v
  | waiting frames on =>
    refine .bind (.scope hd) safe_scope fun b hb => ?_
    exact .bind (.defer hd (.suspended b c.language frames on))
      (safe_defer (d := .suspended b c.language frames on) ⟨hb, hlang, hp⟩) fun _ _ => .pure hd _

/-- A call is watched where a function of a formula is called; one that the limit refuses ends. -/
theorem watchedCall_shadowed {hosts : Hosts} (hhosts : hosts.Sound (.limited d))
    (hf : f.Obeys (.limited d)) (hargs : ∀ v ∈ args, v.Obeys (.limited d)) :
    Shadowed d depth (watchedCall inner depth hosts.silent f args)
      (call inner' depth hosts f args) := by
  cases hf with
  | native _ => exact callNative_shadowed hin hd hhosts _ hargs
  | @defined c hc =>
    have hlimit : c.language.options.maxCallDepth = d := by
      obtain ⟨hlimit, _, _, _⟩ := hc
      exact hlimit
    simp only [watchedCall, call, hlimit]
    split
    · next hlt => exact .watched (enterBody_shadowed hin hlt hc (definedScope_obeys hc hargs))
    · exact .refused
  | @prepared c hc =>
    have hcaptured : Bindings.Obeys (.limited d) c.captured := by
      obtain ⟨_, _, hcaptured, _⟩ := hc
      exact hcaptured
    exact enterBody_shadowed hin hd hc (Bindings.Obeys.update hcaptured
      fun p hp => hargs p.2 (List.of_mem_zip hp).2)

end

end

theorem engine_shadowed {hosts : Hosts} (hhosts : hosts.Sound (.limited d)) (fuel : Nat) :
    Engine.Shadowed d (watchedEngine hosts.silent fuel) (engine hosts fuel) := by
  have hsound := engine_sound (Guard.limited_lawful d) hhosts
  induction fuel with
  | zero => exact ⟨hsound 0, fun hd _ _ => .exhausted hd, fun hd _ _ => .exhausted hd⟩
  | succ fuel ih =>
    refine ⟨hsound (fuel + 1), fun hd hlang hcode => ?_, fun hd hf hargs => ?_⟩
    · exact run_shadowed ih hd hlang hcode.2 fun o ho => (List.not_mem_nil ho).elim
    · exact watchedCall_shadowed ih hd hhosts hf hargs

end Machine

end Formula

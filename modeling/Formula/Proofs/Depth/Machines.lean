import Formula.Proofs.Depth.Lockstep

/-!
# Machines under two limits

A machine whose calls are watched, and the machine that starts from everything under another limit
of the call depth, are in lockstep: what they enter and call one level further in is, and both do
the same with it. Only a call of a function of a formula compares its depth with a limit.
-/

namespace Formula

open Eval (Lockstep Adds)

variable {limit d active : Nat}

def Progress.relimit (d : Nat) : Progress → Progress
  | .done v => .done (v.relimit d)
  | .waiting frames on => .waiting frames on

/-- A run that has a value; without deferred values nothing waits. -/
abbrev Progress.At (limit : Nat) (p : Progress) : Prop := p.Internal False (· = limit)

abbrev Stack.At (limit : Nat) (stack : List Operand) : Prop :=
  Stack.Made (Value.At limit) (Program.At limit) stack

abbrev Operand.At (limit : Nat) (o : Operand) : Prop :=
  o.Made (Value.At limit) (Program.At limit)

namespace Machine

def Forced.relimit (d : Nat) : Forced → Forced
  | .ready stack => .ready (Stack.relimit d stack)
  | .suspended depth frames on stack => .suspended depth frames on stack

def Step.relimit (d : Nat) : Step → Step
  | .next stack => .next (Stack.relimit d stack)
  | .await frames on stack => .await frames on stack

end Machine

/-- Engines whose programs and calls are in lockstep, as deep as the limit `d` allows. -/
structure Engine.Lockstep (limit d : Nat) (inner inner' : Engine) : Prop where
  adds : inner.Adds
  enter : ∀ {active : Nat} {lang : Language Value} {code : Program Value},
    active ≤ d → lang.At limit → Program.At limit code →
      Eval.Lockstep limit d active (Progress.At limit) (Progress.relimit d)
        (inner.enter lang active code) (inner'.enter (lang.relimit d) active (Program.relimit d code))
  call : ∀ {active : Nat} {f : Function Value} {args : List Value},
    active ≤ d → (Value.function f).At limit → (∀ v ∈ args, v.At limit) →
      Eval.Lockstep limit d active (Value.At limit) (Value.relimit d) (inner.call active f args)
        (inner'.call active (f.relimit d) (args.map (Value.relimit d)))

namespace Machine

variable {inner inner' : Engine} {lang : Language Value} {stack : List Operand}

/-! ### Instructions -/

@[simp] theorem needed_relimit (i : Instruction Value) : needed (i.relimit d) = needed i := by
  cases i <;> simp only [Instruction.relimit, needed]

/-- Where nothing is deferred, a stack is gone on with. -/
theorem afterStep_settled {rest : Program Value}
    (hs : ∀ id below, stack ≠ .value (.deferred id) :: below) :
    afterStep inner lang active rest (.next stack) = run inner lang active rest stack := by
  unfold afterStep
  split
  · next h => cases h
  · next id below h =>
    cases h
    exact (hs id below rfl).elim
  · next h =>
    cases h
    rfl

theorem settled_of_at (hs : Stack.At limit stack) (id : Nat) (below : List Operand) :
    stack ≠ .value (.deferred id) :: below := by
  rintro rfl
  have hv : (Value.deferred id).At limit := hs.head
  cases hv with
  | deferred _ hwaits => exact hwaits

theorem settled_relimit (hs : ∀ id below, stack ≠ .value (.deferred id) :: below) (id : Nat)
    (below : List Operand) : Stack.relimit d stack ≠ .value (.deferred id) :: below := by
  intro h
  obtain ⟨o, rest, rfl, ho, -⟩ := List.map_eq_cons_iff.mp h
  rcases o with v | code
  · cases v with
    | deferred id' => exact hs id' rest rfl
    | _ => simp [Operand.relimit, Value.relimit] at ho
  · cases ho

section

variable (h : Engine.Lockstep limit d inner inner') (hd : active ≤ d) (hlang : lang.At limit)

include h hd hlang

theorem resolve_lockstep {o : Operand} (ho : o.At limit) :
    Lockstep limit d active (Progress.At limit) (Progress.relimit d)
      (resolve inner lang active o) (resolve inner' (lang.relimit d) active (o.relimit d)) := by
  cases o with
  | value v => exact .pure hd ho
  | thunk code => exact h.enter hd hlang ho

theorem force_lockstep (ds : List Nat) (hs : Stack.At limit stack) :
    Lockstep limit d active (Forced.Made (Value.At limit) (Program.At limit) False)
      (Forced.relimit d) (force inner lang active ds stack)
      (force inner' (lang.relimit d) active ds (Stack.relimit d stack)) := by
  induction ds generalizing stack with
  | nil => exact .pure hd hs
  | cons k ds ih =>
    have hmapped : (Stack.relimit d stack)[k]? = stack[k]?.map (Operand.relimit d) :=
      List.getElem?_map
    cases hk : stack[k]? with
    | none =>
      rw [hk] at hmapped
      simp only [force, hk, hmapped, Option.map_none]
      exact .fail hd _
    | some o =>
      have ho := hs o (List.mem_of_getElem? hk)
      rw [hk] at hmapped
      cases o with
      | value v =>
        cases ho with
        | deferred _ hwaits => exact hwaits.elim
        | _ =>
          simp only [force, hk, hmapped, Option.map_some, Operand.relimit, Value.relimit]
          exact ih hs
      | thunk code =>
        rw [force_thunk hk, force_thunk hmapped]
        refine Lockstep.bind (h.enter hd hlang ho) (fun p => ?_) fun p hp => ?_
        · cases p with
          | done v => exact force_adds h.adds ds _
          | waiting frames on => exact .pure _
        · cases p with
          | done v =>
            have hv : (Operand.value v).At limit := hp
            have hset := ih (hs.set k hv)
            rwa [Stack.relimit, List.map_set] at hset
          | waiting frames on => exact hp.elim

theorem finish_lockstep (hs : Stack.At limit stack) :
    Lockstep limit d active (Progress.At limit) (Progress.relimit d)
      (finish inner lang active stack)
      (finish inner' (lang.relimit d) active (Stack.relimit d stack)) := by
  match stack, hs with
  | [], _ | _ :: _ :: _, _ => exact .fail hd _
  | [o], hs =>
    refine Lockstep.bind (resolve_lockstep h hd hlang hs.head) (fun p => ?_) fun p hp => ?_
    · cases p with
      | done v | waiting frames on => exact .pure _
    · cases p with
      | done v =>
        simp only [Progress.relimit, Value.relimit_normalise]
        exact .pure (t := Progress.relimit d) hd ((Value.Internal.partwise _ _).normalise hp)
      | waiting frames on => exact hp.elim

omit h hlang in
theorem use_lockstep (use : Use) {v : Value} (hv : v.At limit) :
    Lockstep limit d active (Value.At limit) (Value.relimit d) (use.apply v)
      (use.apply (v.relimit d)) := by
  cases use with
  | keep => exact .pure hd hv
  | truth =>
    rw [Use.apply, Use.apply, Value.relimit_truthy]
    exact .pure_eq hd (.bool _) (Value.relimit_bool _).symm
  | assign path => exact .bind (.assign hd path hv) (fun _ => .pure _) fun _ _ => .pure hd hv

omit h in
theorem define_lockstep (name : String) (params : List String) {body : Program Value}
    (hbody : Program.At limit body) :
    Lockstep limit d active (Value.At limit) (Value.relimit d) (define lang name params body)
      (define (lang.relimit d) name params (Program.relimit d body)) := by
  refine .bind (.scope hd) (fun _ => .bind .freshId fun _ => .bind (.setScope _) fun _ => .pure _)
    fun captured hcaptured => ?_
  refine .bind (.freshId hd) (fun _ => .bind (.setScope _) fun _ => .pure _) fun id _ => ?_
  have hf : (Value.function (.defined ⟨id, name, params, body, captured, lang⟩)).At limit :=
    .defined hbody hcaptured hlang
  have hrelimit : Value.function (.defined ⟨id, name, params, Program.relimit d body,
      Bindings.relimit d captured, lang.relimit d⟩) =
      (Value.function (.defined ⟨id, name, params, body, captured, lang⟩)).relimit d := by
    rw [Value.relimit_function, Function.relimit, Closure.relimit_eq]
    rfl
  have hscope := Lockstep.setScope hd (Record.forall_insert hcaptured name hf)
  rw [Bindings.relimit, ← Record.insert_map, ← hrelimit] at hscope
  exact .bind hscope (fun _ => .pure _) fun _ _ => .pure_eq hd hf hrelimit

theorem perform_lockstep {p : Plan} (hp : p.Made (Value.At limit) (Program.At limit)) :
    Lockstep limit d active (Step.Made (Value.At limit) (Program.At limit) False) (Step.relimit d)
      (perform inner lang active p) (perform inner' (lang.relimit d) active (p.relimit d)) := by
  have hpush : ∀ {v : Value} {stack}, v.At limit → Stack.At limit stack →
      Lockstep limit d active (Step.Made (Value.At limit) (Program.At limit) False)
        (Step.relimit d) (pure (.next (.value v :: stack)))
        (pure (.next (.value (v.relimit d) :: Stack.relimit d stack))) :=
    fun hv hs => .pure (t := Step.relimit d) hd (hs.cons hv)
  cases p with
  | next stack => exact .pure (t := Step.relimit d) hd hp
  | resolve o use stack =>
    refine .bind (resolve_lockstep h hd hlang hp.1) (fun p => ?_) fun p hv => ?_
    · cases p with
      | done v => exact .bind (use_adds use v) fun _ => .pure _
      | waiting frames on => exact .pure _
    · cases p with
      | done v => exact .bind (use_lockstep hd use hv) (fun _ => .pure _) fun u hu => hpush hu hp.2
      | waiting frames on => exact hv.elim
  | call f args stack =>
    exact .bind (h.call hd hp.1 hp.2.1) (fun _ => .pure _) fun v hv => hpush hv hp.2.2
  | define name params body stack =>
    exact .bind (define_lockstep hd hlang name params hp.1) (fun _ => .pure _)
      fun v hv => hpush hv hp.2

theorem step_lockstep {i : Instruction Value} (hi : i.Internal False (· = limit))
    (hs : Stack.At limit stack) :
    Lockstep limit d active (Step.Made (Value.At limit) (Program.At limit) False) (Step.relimit d)
      (step inner lang active i stack)
      (step inner' (lang.relimit d) active (i.relimit d) (Stack.relimit d stack)) := by
  refine .bind (.scope hd) (fun _ => .bind (.ofExcept _) fun p => perform_adds h.adds p)
    fun scope hscope => ?_
  have hplan := plan_made (Value.Internal.partwise False (· = limit)).fieldwise
    (fun _ _ => hlang.resolve) hscope (hi.made hlang fun _ hgroup => (hgroup ▸ hi).ofGroup) hs
  exact .bind (.ofExcept hd hplan (plan_relimit stack lang scope i))
    (fun p => perform_adds h.adds p) fun p hp => perform_lockstep h hd hlang hp

/-! ### Code -/

theorem run_lockstep {code : Program Value} (hcode : Program.At limit code)
    (hs : Stack.At limit stack) :
    Lockstep limit d active (Progress.At limit) (Progress.relimit d)
      (run inner lang active code stack)
      (run inner' (lang.relimit d) active (Program.relimit d code) (Stack.relimit d stack)) := by
  induction code generalizing stack with
  | nil => exact finish_lockstep h hd hlang hs
  | cons i rest ih =>
    obtain ⟨hi, hrest⟩ := List.forall_mem_cons.mp hcode
    have hadds : ∀ stack, Adds (run inner lang active rest stack) := run_adds h.adds rest
    have hcons : Program.relimit d (i :: rest) = i.relimit d :: Program.relimit d rest := rfl
    rw [hcons, run_cons, run_cons, needed_relimit]
    refine .bind (force_lockstep h hd hlang _ hs) (afterForce_adds h.adds hadds i) fun r hr => ?_
    cases r with
    | suspended k frames on stack => exact hr.elim
    | ready stack =>
      refine .bind (step_lockstep h hd hlang hi hr) (afterStep_adds hadds) fun s hs => ?_
      cases s with
      | await frames on stack => exact hs.elim
      | next stack =>
        have hsettled := settled_of_at hs
        rw [afterStep_settled hsettled, Step.relimit, afterStep_settled (settled_relimit hsettled)]
        exact ih hrest hs

end

/-! ### Calls -/

theorem traversalArguments_relimit (name : String) (args : List Value) (arrayAt : Nat) :
    traversalArguments name (args.map (Value.relimit d)) arrayAt =
      (traversalArguments name args arrayAt).map
        (Prod.map (Function.relimit d) (List.map (Value.relimit d))) := by
  unfold traversalArguments
  rw [Operation.arg_relimit, Operation.arg_relimit]
  cases Operation.arg args 0 with
  | function f =>
    cases Operation.arg args arrayAt with
    | _ => simp [Except.map]
  | _ => simp [Except.map]

theorem definedScope_eq (f : Function Value) (c : Closure Value) (args : List Value) :
    definedScope f c args = Record.update (Record.insert c.captured c.name (.function f))
      (c.params.zipIdx.map fun p => (p.1, Operation.arg args p.2)) := rfl

/-- The variables of a call, under another limit. -/
theorem definedScope_relimit (c : Closure Value) (args : List Value) :
    definedScope (.defined (c.relimit d)) (c.relimit d) (args.map (Value.relimit d)) =
      Bindings.relimit d (definedScope (.defined c) c args) := by
  have hself : Value.function (.defined (c.relimit d)) =
      (Value.function (.defined c)).relimit d := by
    rw [Value.relimit_function, Function.relimit]
  have hparams : c.params.zipIdx.map (fun p =>
      (p.1, Operation.arg (args.map (Value.relimit d)) p.2)) =
      Bindings.relimit d (c.params.zipIdx.map fun p => (p.1, Operation.arg args p.2)) := by
    simp [Bindings.relimit, Function.comp_def]
  rw [definedScope_eq, definedScope_eq, Closure.relimit_captured, Closure.relimit_name,
    Closure.relimit_params, hself, hparams, Bindings.relimit, Record.insert_map, Record.update_map]

section

variable (h : Engine.Lockstep limit d inner inner') (hd : active ≤ d)

include h hd

section

variable {f : Function Value} (hf : (Value.function f).At limit)

include hf

theorem itemCall_lockstep {x : Value} (hx : x.At limit) (i : Float) :
    Lockstep limit d active (Value.At limit) (Value.relimit d)
      (inner.call active f [x, .number i])
      (inner'.call active (f.relimit d) [x.relimit d, .number i]) := by
  have hcall := h.call hd hf
    (List.forall_mem_cons.mpr ⟨hx, List.forall_mem_singleton.mpr (.number i)⟩)
  rwa [List.map_cons, List.map_singleton, Value.relimit_number] at hcall

theorem foldCall_lockstep {acc x : Value} (hacc : acc.At limit) (hx : x.At limit) (i : Float) :
    Lockstep limit d active (Value.At limit) (Value.relimit d)
      (inner.call active f [acc, x, .number i])
      (inner'.call active (f.relimit d) [acc.relimit d, x.relimit d, .number i]) := by
  have hcall := h.call hd hf (List.forall_mem_cons.mpr
    ⟨hacc, List.forall_mem_cons.mpr ⟨hx, List.forall_mem_singleton.mpr (.number i)⟩⟩)
  rwa [List.map_cons, List.map_cons, List.map_singleton, Value.relimit_number] at hcall

theorem mapItems_lockstep (i : Nat) {items : List Value} (hitems : ∀ v ∈ items, v.At limit) :
    Lockstep limit d active (fun vs => ∀ v ∈ vs, v.At limit) (List.map (Value.relimit d))
      (mapItems inner active f i items)
      (mapItems inner' active (f.relimit d) i (items.map (Value.relimit d))) := by
  induction items generalizing i with
  | nil => exact .pure hd hitems
  | cons x rest ih =>
    obtain ⟨hx, hrest⟩ := List.forall_mem_cons.mp hitems
    have hadds : ∀ i items, Adds (mapItems inner active f i items) := mapItems_adds h.adds f
    refine .bind (itemCall_lockstep h hd hf hx _)
      (fun _ => .bind (hadds (i + 1) rest) fun _ => .pure _) fun y hy => ?_
    refine .bind (ih (i + 1) hrest) (fun _ => .pure _) fun ys hys => ?_
    exact .pure (t := List.map (Value.relimit d)) hd (List.forall_mem_cons.mpr ⟨hy, hys⟩)

theorem filterItems_lockstep (i : Nat) {items : List Value} (hitems : ∀ v ∈ items, v.At limit) :
    Lockstep limit d active (fun vs => ∀ v ∈ vs, v.At limit) (List.map (Value.relimit d))
      (filterItems inner active f i items)
      (filterItems inner' active (f.relimit d) i (items.map (Value.relimit d))) := by
  induction items generalizing i with
  | nil => exact .pure hd hitems
  | cons x rest ih =>
    obtain ⟨hx, hrest⟩ := List.forall_mem_cons.mp hitems
    have hadds : ∀ i items, Adds (filterItems inner active f i items) := filterItems_adds h.adds f
    refine .bind (itemCall_lockstep h hd hf hx _)
      (fun _ => .bind (hadds (i + 1) rest) fun _ => .pure _) fun y hy => ?_
    refine .bind (ih (i + 1) hrest) (fun _ => .pure _) fun kept hkept => ?_
    rw [Value.relimit_truthy]
    split
    · exact .pure (t := List.map (Value.relimit d)) hd (List.forall_mem_cons.mpr ⟨hx, hkept⟩)
    · exact .pure hd hkept

theorem foldItems_lockstep (i : Nat) {acc : Value} {items : List Value} (hacc : acc.At limit)
    (hitems : ∀ v ∈ items, v.At limit) :
    Lockstep limit d active (Value.At limit) (Value.relimit d)
      (foldItems inner active f i acc items)
      (foldItems inner' active (f.relimit d) i (acc.relimit d) (items.map (Value.relimit d))) := by
  induction items generalizing i acc with
  | nil => exact .pure hd hacc
  | cons x rest ih =>
    obtain ⟨hx, hrest⟩ := List.forall_mem_cons.mp hitems
    exact .bind (foldCall_lockstep h hd hf hacc hx _)
      (fun y => foldItems_adds h.adds f (i + 1) y rest) fun y hy => ih (i + 1) hy hrest

end

variable {args : List Value} (hargs : ∀ v ∈ args, v.At limit)

include hargs

theorem traverse_lockstep (t : Traversal) :
    Lockstep limit d active (Value.At limit) (Value.relimit d) (traverse inner active t args)
      (traverse inner' active t (args.map (Value.relimit d))) := by
  have hparts := Value.Internal.partwise False (· = limit)
  have harg : ∀ i, (Operation.arg args i).At limit :=
    Operation.arg_hereditary hparts.toHereditary hargs
  have hundefined : Lockstep limit d active (Value.At limit) (Value.relimit d) (pure .undefined)
      (pure .undefined) := .pure_eq hd .undefined Value.relimit_undefined.symm
  have harray : ∀ {x y : Eval (List Value)}, x.Adds →
      Lockstep limit d active (fun vs => ∀ v ∈ vs, v.At limit) (List.map (Value.relimit d)) x y →
      Lockstep limit d active (Value.At limit) (Value.relimit d)
        (x >>= fun vs => pure (.array vs)) (y >>= fun vs => pure (.array vs)) :=
    fun _ hxy => .bind hxy (fun _ => .pure _) fun vs hvs =>
      .pure_eq hd (.array hvs) (Value.relimit_array vs).symm
  cases t with
  | map =>
    simp only [traverse, Operation.arg_relimit, Value.relimit_isUndefined]
    split
    · exact hundefined
    · refine .bind (.ofExcept hd (traversalArguments_spec "map" args 1)
        (traversalArguments_relimit "map" args 1))
        (fun r => .bind (mapItems_adds h.adds r.1 0 r.2) fun _ => .pure _) fun r hr => ?_
      exact harray (mapItems_adds h.adds r.1 0 r.2)
        (mapItems_lockstep h hd (hr.1 ▸ harg 0) 0 (hparts.items (hr.2 ▸ harg 1)))
  | filter =>
    simp only [traverse, Operation.arg_relimit, Value.relimit_isUndefined]
    split
    · exact hundefined
    · refine .bind (.ofExcept hd (traversalArguments_spec "filter" args 1)
        (traversalArguments_relimit "filter" args 1))
        (fun r => .bind (filterItems_adds h.adds r.1 0 r.2) fun _ => .pure _) fun r hr => ?_
      exact harray (filterItems_adds h.adds r.1 0 r.2)
        (filterItems_lockstep h hd (hr.1 ▸ harg 0) 0 (hparts.items (hr.2 ▸ harg 1)))
  | fold =>
    simp only [traverse, Operation.arg_relimit, Value.relimit_isUndefined]
    split
    · exact hundefined
    · refine .bind (.ofExcept hd (traversalArguments_spec "fold" args 2)
        (traversalArguments_relimit "fold" args 2))
        (fun r => foldItems_adds h.adds r.1 0 _ r.2) fun r hr => ?_
      exact foldItems_lockstep h hd (hr.1 ▸ harg 0) 0 (harg 1) (hparts.items (hr.2 ▸ harg 2))

theorem callNative_lockstep (hosts : Hosts) {g : Native} (hg : g.BuiltIn) :
    Lockstep limit d active (Value.At limit) (Value.relimit d)
      (callNative inner active hosts g args)
      (callNative inner' active hosts g (args.map (Value.relimit d))) := by
  unfold callNative
  cases ha : g.action with
  | operation op =>
    have hparts := Value.Internal.partwise False (· = limit)
    exact .ofExcept hd (op.apply_hereditary hparts.toHereditary hargs)
      (Operation.apply_relimit args op)
  | traversal t => exact traverse_lockstep h hd hargs t
  | random =>
    refine .bind (.random hd) (fun _ => .pure _) fun x _ => .pure_eq hd (.number _) ?_
    rw [Value.relimit_number, Operation.arg_relimit, Value.relimit_truthy, Value.relimit_toNumber]
    rfl
  | host key => exact (hg key ha).elim

omit hargs in
theorem enterBody_lockstep {c : Closure Value} (hc : (Value.function (.defined c)).At limit)
    {scope : Bindings} (hscope : ∀ p ∈ scope, p.2.At limit) :
    Lockstep limit d active (Value.At limit) (Value.relimit d)
      (enterBody inner active c scope)
      (enterBody inner' active (c.relimit d) (Bindings.relimit d scope)) := by
  have hadds : ∀ p, (afterBody c.language p).Adds := by
    intro p
    cases p with
    | done v => exact .pure _
    | waiting frames on => exact .bind .scope fun _ => .bind (.defer _) fun _ => .pure _
  rw [enterBody_eq, enterBody_eq, Closure.relimit_eq]
  cases hc with
  | defined hbody _ hlang =>
    refine .inScope hscope (.bind (h.enter hd hlang hbody) hadds fun p hp => ?_)
    cases p with
    | done v => exact .pure hd hp
    | waiting frames on => exact hp.elim

/-- A call at a depth that one of the limits may refuse. -/
theorem watchedCall_lockstep (hosts : Hosts) {f : Function Value}
    (hf : (Value.function f).At limit) :
    Lockstep limit d active (Value.At limit) (Value.relimit d)
      (watchedCall inner active hosts f args)
      (call inner' active hosts (f.relimit d) (args.map (Value.relimit d))) := by
  cases hf with
  | native hg =>
    rw [Function.relimit]
    exact callNative_lockstep h hd hargs hosts hg
  | @defined c hbody hcaptured hlang =>
    have hc : (Value.function (.defined c)).At limit := .defined hbody hcaptured hlang
    have hlimit : c.language.options.maxCallDepth = limit := hlang.depth
    simp only [watchedCall, Function.relimit, call, Closure.relimit_language,
      Language.relimit_maxCallDepth, hlimit, definedScope_relimit]
    by_cases hx : active < limit
    · rw [if_pos hx]
      by_cases hy : active < d
      · rw [if_pos hy]
        exact .watched (enterBody_lockstep h hy hc (definedScope_internal hc hargs))
      · rw [if_neg hy]
        exact .refused (enterBody_adds h.adds c _) (by omega) (by omega)
    · rw [if_neg hx]
      exact .overran trivial fun hle => ⟨.callDepth d, trivial, if_neg (by omega)⟩

end

/-- The engine whose calls are watched is in lockstep with the engine, however many levels. -/
theorem engine_lockstep (limit d : Nat) (hosts : Hosts) (fuel : Nat) :
    (watchedEngine hosts fuel).Lockstep limit d (engine hosts fuel) := by
  induction fuel with
  | zero =>
    exact ⟨⟨fun _ _ _ => .exhausted, fun _ _ _ => .exhausted⟩, fun _ _ _ => .exhausted,
      fun _ _ _ => .exhausted⟩
  | succ fuel ih =>
    refine ⟨watchedEngine_adds hosts (fuel + 1), fun hd hlang hcode => ?_, fun hd hf hargs => ?_⟩
    · exact run_lockstep ih hd hlang hcode fun o ho => (List.not_mem_nil ho).elim
    · exact watchedCall_lockstep ih hd hargs hosts hf

end Machine

end Formula

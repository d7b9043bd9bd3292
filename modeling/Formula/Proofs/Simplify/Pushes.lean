import Formula.Proofs.Machine.Fuel
import Formula.Proofs.Values.Settled
import Formula.Proofs.Waiting.Runs

/-!
# Code that pushes known values

Code pushes known values if it puts them on the stack and does nothing else wherever some variables
have the values they are known to have. The values are not deferred themselves, though what they hold
may be. Operators get such code from such code when they are pure: called on values of some kind,
such as settled ones, they change nothing and give one result of this kind.
-/

namespace Formula

open Waiting

/-- The variables of one scope have the same values in another. -/
def Bindings.Within (b scope : Bindings) : Prop :=
  ∀ name v, Record.get? b name = some v → Record.get? scope name = some v

/-- A function that gives one result of some kind for arguments of this kind, and changes nothing. -/
def Native.PureOn (P : Value → Prop) (hosts : Hosts) (f : Native) : Prop :=
  ∀ args, (∀ v ∈ args, P v) → ∃ r, (∀ v, r = .ok v → P v) ∧
    ∃ N, ∀ m ≥ N, ∀ depth w, (Machine.engine hosts m).call depth (.native f) args w = (result r, w)

/-- A language whose operators are pure on values of some kind. -/
structure Language.PureOperatorsOn (P : Value → Prop) (hosts : Hosts) (lang : Language Value) :
    Prop where
  unary : ∀ op f, lang.unaryOp? op = some f → f.PureOn P hosts
  binary : ∀ op f, lang.binaryOp? op = some f → f.PureOn P hosts

/-- A function that gives one settled result for settled arguments, and changes nothing. -/
def Native.Pure (hosts : Hosts) (f : Native) : Prop :=
  ∀ args, (∀ v ∈ args, v.Settled) → ∃ r, (∀ v, r = .ok v → v.Settled) ∧
    ∃ N, ∀ m ≥ N, ∀ depth w, (Machine.engine hosts m).call depth (.native f) args w = (result r, w)

structure Language.PureOperators (hosts : Hosts) (lang : Language Value) : Prop where
  unary : ∀ op f, lang.unaryOp? op = some f → f.Pure hosts
  binary : ∀ op f, lang.binaryOp? op = some f → f.Pure hosts

theorem Language.PureOperators.on {hosts : Hosts} {lang : Language Value}
    (h : lang.PureOperators hosts) : lang.PureOperatorsOn Value.Settled hosts := ⟨h.unary, h.binary⟩

theorem Native.call_operation_succ (hosts : Hosts) {f : Native} {op : Operation}
    (hf : f.action = .operation op) (n depth : Nat) (args : List Value) :
    (Machine.engine hosts (n + 1)).call depth (.native f) args = Eval.ofExcept (op.apply args) := by
  simp only [Machine.engine, Machine.call, Machine.callNative, hf]

/-- A built-in operation gives what it is, and changes nothing. -/
theorem Native.call_operation (hosts : Hosts) {f : Native} {op : Operation}
    (hf : f.action = .operation op) (args : List Value) :
    ∃ N, ∀ m ≥ N, ∀ depth w,
      (Machine.engine hosts m).call depth (.native f) args w = (result (op.apply args), w) := by
  refine ⟨1, fun m hm depth w => ?_⟩
  obtain ⟨n, rfl⟩ : ∃ n, m = n + 1 := ⟨m - 1, by omega⟩
  rw [Native.call_operation_succ hosts hf]
  cases op.apply args <;> rfl

theorem Native.pureOn_operation {P : Value → Prop} (hP : Value.Hereditary P) (hosts : Hosts)
    {f : Native} {op : Operation} (hf : f.action = .operation op) : f.PureOn P hosts := by
  intro args hargs
  have hmeets := op.apply_hereditary hP hargs
  exact ⟨op.apply args, fun v hv => hmeets.result hv, Native.call_operation hosts hf args⟩

/-- A function of the host that notes nothing and answers at once is pure. -/
theorem Native.pure_host {hosts : Hosts} {f : Native} {key : String} (hf : f.action = .host key)
    (h : ∀ args, (∀ v ∈ args, v.Settled) →
      ∃ r, hosts key args = ⟨[], .of r⟩ ∧ ∀ v, r = .ok v → v.Settled) : f.Pure hosts := by
  intro args hargs
  obtain ⟨r, hreply, hr⟩ := h args hargs
  refine ⟨r, hr, 1, fun m hm depth w => ?_⟩
  obtain ⟨n, rfl⟩ : ∃ n, m = n + 1 := ⟨m - 1, by omega⟩
  have hnote : Eval.note [] w = (.ok (), w) := by
    show (Except.ok (), { w with log := w.log ++ [] }) = (.ok (), w)
    rw [List.append_nil]
  have hcall : (Machine.engine hosts (n + 1)).call depth (.native f) args =
      Eval.note [] >>= fun _ => Eval.ofExcept r := by
    simp only [Machine.engine, Machine.call, Machine.callNative, hf, hreply]
    cases r <;> rfl
  rw [hcall, Eval.bind_of_ok hnote]
  cases r <;> rfl

namespace Machine

open Eval

/-- Code that puts values on the stack that are not deferred, the last one topmost, and does nothing
else, if it has levels enough. -/
structure Pushes (hosts : Hosts) (lang : Language Value) (b : Bindings) (code : Program Value)
    (vs : List Value) : Prop where
  ready : ∀ v ∈ vs, v.isDeferred = false
  below : ∀ n depth rest stack w, b.Within w.scope →
    (run (engine hosts n) lang depth (code ++ rest) stack w).1 ≠ .error .exhausted →
      run (engine hosts n) lang depth (code ++ rest) stack w =
        run (engine hosts n) lang depth rest (vs.reverse.map .value ++ stack) w
  above : ∃ N, ∀ n ≥ N, ∀ depth rest stack w, b.Within w.scope →
    run (engine hosts n) lang depth (code ++ rest) stack w =
      run (engine hosts n) lang depth rest (vs.reverse.map .value ++ stack) w

variable {hosts : Hosts} {lang : Language Value} {b : Bindings} {code : Program Value}
  {vs : List Value}

/-- An instruction whose needed operands are values does what its plan asks for. -/
theorem run_plan {inner : Engine} {depth : Nat} {i : Instruction Value} {stack : List Operand}
    {p : Plan} {w : World} (rest : Program Value) (hfilled : ∀ d ∈ needed i, Filled stack d)
    (hp : plan lang w.scope i stack = .ok p) :
    run inner lang depth (i :: rest) stack w =
      (perform inner lang depth p >>= afterStep inner lang depth rest) w := by
  have hforce : force inner lang depth (needed i) stack = Pure.pure (.ready stack) := by
    have h : force inner lang depth (needed i ++ []) stack = force inner lang depth [] stack :=
      force_filled [] hfilled
    rwa [List.append_nil] at h
  have hstep : step inner lang depth i stack w = perform inner lang depth p w := by
    show (Eval.ofExcept (plan lang w.scope i stack) >>= perform inner lang depth) w = _
    rw [hp]
    rfl
  rw [run_cons, hforce]
  show (step inner lang depth i stack >>= afterStep inner lang depth rest) w = _
  simp only [bind, ExceptT.bind, ExceptT.mk, StateT.bind, hstep]

theorem run_variable {inner : Engine} {depth : Nat} {name : String} {v : Value} {w : World}
    (hv : v.isDeferred = false) (hlookup : lookup lang w.scope name = .ok v) (rest : Program Value)
    (stack : List Operand) : run inner lang depth (.variable name :: rest) stack w =
      run inner lang depth rest (.value v :: stack) w := by
  have hplan : plan lang w.scope (.variable name) stack = .ok (.next (.value v :: stack)) := by
    simp only [plan, hlookup]
    rfl
  rw [run_plan rest (fun d hd => (List.not_mem_nil hd).elim) hplan, ← afterStep_value hv]
  rfl

theorem perform_call {inner : Engine} {depth : Nat} (f : Function Value) (args : List Value)
    (stack : List Operand) (rest : Program Value) :
    perform inner lang depth (.call f args stack) >>= afterStep inner lang depth rest =
      inner.call depth f args >>= fun v =>
        afterStep inner lang depth rest (.next (.value v :: stack)) := by
  rw [perform, bind_assoc]
  rfl

theorem filled_values (hvs : ∀ v ∈ vs, v.isDeferred = false) {d : Nat} (hd : d < vs.length)
    (stack : List Operand) : Filled (vs.reverse.map .value ++ stack) d := by
  have hlt : d < vs.reverse.length := by simpa using hd
  have hget : (vs.reverse.map Operand.value ++ stack)[d]? = some (.value vs.reverse[d]) := by
    rw [List.getElem?_append_left (by simpa using hd), List.getElem?_map,
      List.getElem?_eq_getElem hlt]
    rfl
  have hmem : vs.reverse[d] ∈ vs := List.mem_reverse.mp (List.getElem_mem hlt)
  exact ⟨vs.reverse[d], hget, hvs _ hmem⟩

namespace Pushes

theorem nil : Pushes hosts lang b [] [] where
  ready := List.forall_mem_nil _
  below _ _ _ _ _ _ _ := rfl
  above := ⟨0, fun _ _ _ _ _ _ _ => rfl⟩

theorem append {code' : Program Value} {vs' : List Value} (h : Pushes hosts lang b code vs)
    (h' : Pushes hosts lang b code' vs') : Pushes hosts lang b (code ++ code') (vs ++ vs') where
  ready := List.forall_mem_append.mpr ⟨h.ready, h'.ready⟩
  below n depth rest stack w hw hrun := by
    rw [List.append_assoc] at hrun ⊢
    have hfirst := h.below n depth (code' ++ rest) stack w hw hrun
    rw [hfirst] at hrun ⊢
    rw [h'.below n depth rest _ w hw hrun]
    simp
  above := by
    obtain ⟨N, hN⟩ := h.above
    obtain ⟨M, hM⟩ := h'.above
    refine ⟨N + M, fun n hn depth rest stack w hw => ?_⟩
    rw [List.append_assoc, hN n (by omega) depth _ stack w hw, hM n (by omega) depth rest _ w hw]
    simp

/-- An instruction that takes pushed values off and pushes a value. -/
theorem next {i : Instruction Value} {u : Value} (h : Pushes hosts lang b code vs)
    (hneeded : ∀ d ∈ needed i, d < vs.length) (hu : u.isDeferred = false)
    (hplan : ∀ scope stack, b.Within scope →
      plan lang scope i (vs.reverse.map .value ++ stack) = .ok (.next (.value u :: stack))) :
    Pushes hosts lang b (code ++ [i]) [u] := by
  have hrun : ∀ n depth rest stack w, b.Within w.scope →
      run (engine hosts n) lang depth (i :: rest) (vs.reverse.map .value ++ stack) w =
        run (engine hosts n) lang depth rest (.value u :: stack) w := by
    intro n depth rest stack w hw
    have hfilled : ∀ d ∈ needed i, Filled (vs.reverse.map .value ++ stack) d :=
      fun d hd => filled_values h.ready (hneeded d hd) stack
    rw [run_plan rest hfilled (hplan w.scope stack hw), ← afterStep_value hu rest stack]
    rfl
  refine ⟨List.forall_mem_singleton.mpr hu, fun n depth rest stack w hw hne => ?_, ?_⟩
  · rw [List.append_assoc, List.singleton_append] at hne ⊢
    rw [h.below n depth _ stack w hw hne]
    exact hrun n depth rest stack w hw
  · obtain ⟨N, hN⟩ := h.above
    refine ⟨N, fun n hn depth rest stack w hw => ?_⟩
    rw [List.append_assoc, List.singleton_append, hN n hn depth _ stack w hw]
    exact hrun n depth rest stack w hw

/-- An instruction that calls a function with pushed values, where the call gives a value and changes
nothing. -/
theorem call {i : Instruction Value} {f : Function Value} {args : List Value} {u : Value}
    (h : Pushes hosts lang b code vs) (hneeded : ∀ d ∈ needed i, d < vs.length)
    (hplan : ∀ scope stack,
      plan lang scope i (vs.reverse.map .value ++ stack) = .ok (.call f args stack))
    (hu : u.isDeferred = false)
    (hcall : ∃ N, ∀ m ≥ N, ∀ depth w, (engine hosts m).call depth f args w = (.ok u, w)) :
    Pushes hosts lang b (code ++ [i]) [u] := by
  obtain ⟨M, hM⟩ := hcall
  have hrun : ∀ n depth rest stack w,
      run (engine hosts n) lang depth (i :: rest) (vs.reverse.map .value ++ stack) w =
        ((engine hosts n).call depth f args >>= fun v =>
          afterStep (engine hosts n) lang depth rest (.next (.value v :: stack))) w := by
    intro n depth rest stack w
    have hfilled : ∀ d ∈ needed i, Filled (vs.reverse.map .value ++ stack) d :=
      fun d hd => filled_values h.ready (hneeded d hd) stack
    rw [run_plan rest hfilled (hplan w.scope stack), perform_call]
  -- a call that does not run out of levels gives what it gives with more of them
  have hpure : ∀ n depth w, ((engine hosts n).call depth f args w).1 ≠ .error .exhausted →
      (engine hosts n).call depth f args w = (.ok u, w) := by
    intro n depth w hne
    rw [← (engine_below hosts (Nat.le_max_left n M)).call depth _ _ w hne]
    exact hM _ (Nat.le_max_right n M) depth w
  have hnext : ∀ n depth rest stack w,
      (engine hosts n).call depth f args w = (.ok u, w) →
        run (engine hosts n) lang depth (i :: rest) (vs.reverse.map .value ++ stack) w =
          run (engine hosts n) lang depth rest (.value u :: stack) w := by
    intro n depth rest stack w hc
    rw [hrun, bind_of_ok hc, afterStep_value hu]
  refine ⟨List.forall_mem_singleton.mpr hu, fun n depth rest stack w hw hne => ?_, ?_⟩
  · rw [List.append_assoc, List.singleton_append] at hne ⊢
    have hcode := h.below n depth _ stack w hw hne
    rw [hcode] at hne ⊢
    refine hnext n depth rest stack w (hpure n depth w fun hexhausted => hne ?_)
    rcases hc : (engine hosts n).call depth f args w with ⟨o, w'⟩
    rw [hc] at hexhausted
    simp only at hexhausted
    subst hexhausted
    rw [hrun, bind_of_error hc]
  · obtain ⟨N, hN⟩ := h.above
    refine ⟨N + M, fun n hn depth rest stack w hw => ?_⟩
    rw [List.append_assoc, List.singleton_append, hN n (by omega) depth _ stack w hw]
    exact hnext n depth rest stack w (hM n (by omega) depth w)

theorem literal {v : Value} (hv : v.isDeferred = false) : Pushes hosts lang b [.literal v] [v] :=
  nil.next (List.forall_mem_nil _) hv fun _ _ _ => rfl

theorem member {v : Value} {name : String} (h : Pushes hosts lang b code [v])
    (haccess : lang.options.memberAccess = true) (hname : isReserved name = false)
    (hv : (v.member name).isDeferred = false) :
    Pushes hosts lang b (code ++ [.member name]) [v.member name] := by
  refine h.next (by simp [needed]) hv fun scope stack _ => ?_
  simp only [plan, planMember, haccess, hname]
  rfl

theorem undefined : Pushes hosts lang b [.undefined] [.undefined] :=
  nil.next (List.forall_mem_nil _) rfl fun _ _ _ => rfl

theorem objectStart : Pushes hosts lang b [.objectStart] [.object []] :=
  nil.next (List.forall_mem_nil _) rfl fun _ _ _ => rfl

theorem property {fields : List (String × Value)} {v : Value} {key : String}
    (h : Pushes hosts lang b code [.object fields, v]) (hkey : isReserved key = false) :
    Pushes hosts lang b (code ++ [.property key]) [.object (Record.insert fields key v)] := by
  refine h.next (by simp [needed]) rfl fun scope stack _ => ?_
  simp only [plan, planProperty, hkey]
  rfl

theorem objectEnd {v : Value} (h : Pushes hosts lang b code [v]) :
    Pushes hosts lang b (code ++ [.objectEnd]) [v] :=
  h.next (by simp [needed]) (h.ready v (by simp)) fun _ _ _ => rfl

theorem array (h : Pushes hosts lang b code vs) :
    Pushes hosts lang b (code ++ [.array vs.length]) [.array vs] := by
  refine h.next (by simp [needed]) rfl fun scope stack _ => ?_
  simp only [plan, popValues_reverse]
  rfl

end Pushes

end Machine

end Formula

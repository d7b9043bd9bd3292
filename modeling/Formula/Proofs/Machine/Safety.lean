import Formula.Proofs.Machine.Sound
import Formula.Proofs.Machine.Traversals

/-!
# Runs are safe

Every evaluation of the machine keeps the world sound and ends mildly: one instruction does, hence
code does, hence, by induction on the levels an engine nests, every entered program and every call,
and at last whatever waits for deferred values.
-/

namespace Formula

namespace Machine

open Eval

variable {g : Guard} {inner : Engine} {lang : Language Value} {depth : Nat}

/-! ### Operands -/

theorem resolve_safe (hin : inner.Sound g) (hlang : lang.Obeys g) {o : Operand}
    (ho : o.Obeys g lang) : Safe g (Progress.Sound g lang) (resolve inner lang depth o) := by
  cases o with
  | value v => exact Keeps.pure ho
  | thunk code => exact hin.enter hlang ho

/-- The needed operands are values, or the run can go on once the one it waits for is known. -/
def Forced.Sound (g : Guard) (lang : Language Value) (i : Instruction Value) (ds : List Nat)
    (σ σ' : List Shape) : Forced → Prop
  | .ready stack => Stack.Obeys g lang stack ∧ (g.total → Fits stack (forced ds σ))
  | .suspended d frames _ stack =>
    (∀ f ∈ frames, f.Sound g lang) ∧ Stack.Obeys g lang stack ∧
      (g.total → ∀ v, ∃ τ, Fits (stack.set d (.value v)) τ ∧ effect i τ = some σ')

theorem force_safe (hin : inner.Sound g) (hlang : lang.Obeys g) {i : Instruction Value}
    {ds : List Nat} (hds : ∀ d ∈ ds, d ∈ needed i) {stack : List Operand} {σ : List Shape}
    (σ' : List Shape)
    (hs : Stack.Obeys g lang stack) (hf : g.total → Fits stack σ ∧ effect i σ = some σ') :
    Safe g (Forced.Sound g lang i ds σ σ') (force inner lang depth ds stack) := by
  induction ds generalizing stack σ with
  | nil => exact Keeps.pure ⟨hs, fun ht => (hf ht).1⟩
  | cons d ds ih =>
    have hd : d ∈ needed i := hds d (List.mem_cons_self ..)
    have hrest : ∀ c ∈ ds, c ∈ needed i := fun c hc => hds c (List.mem_cons_of_mem _ hc)
    -- the stack with any value in place of the operand still fits the instruction
    have hset : ∀ v, g.total →
        Fits (stack.set d (.value v)) (σ.set d .value) ∧ effect i (σ.set d .value) = some σ' :=
      fun v ht => ⟨(hf ht).1.set d v, (effect_set hd σ).trans (hf ht).2⟩
    unfold force
    split
    · next hnone =>
      refine Keeps.fail fun ht => ?_
      have hlt : d < σ.length := (effect_inv (hf ht).2).1 d hd
      rw [List.getElem?_eq_none_iff, (hf ht).1.length_eq] at hnone
      omega
    · next id hsome =>
      refine Keeps.pure ⟨fun f hf => (List.not_mem_nil hf).elim, hs, fun ht v => ?_⟩
      exact ⟨_, hset v ht⟩
    · next v _ hsome =>
      have hsame : stack.set d (.value v) = stack := by
        obtain ⟨hlt, hv⟩ := List.getElem?_eq_some_iff.mp hsome
        rw [← hv, List.set_getElem_self]
      exact ih hrest hs fun ht => hsame ▸ hset v ht
    · next code hsome =>
      have hcode : Program.Obeys g lang code := hs _ (List.mem_of_getElem? hsome)
      refine Keeps.bind (hin.enter hlang hcode) fun p hp => ?_
      cases p with
      | done v => exact ih hrest (hs.set d hp) (hset v)
      | waiting frames on => exact Keeps.pure ⟨hp, hs, fun ht v => ⟨_, hset v ht⟩⟩

/-! ### One instruction -/

theorem use_safe (use : Use) {v : Value} (hv : v.Obeys g) : Safe g (Value.Obeys g) (use.apply v) := by
  cases use with
  | keep => exact Keeps.pure hv
  | truth => exact Keeps.pure (.bool _)
  | assign path => exact Keeps.bind (safe_assign path hv) fun _ _ => Keeps.pure hv

theorem use_frames_sound (use : Use) : ∀ f ∈ use.frames, f.Sound g lang := by
  cases use with
  | keep => exact fun f hf => (List.not_mem_nil hf).elim
  | truth => exact List.forall_mem_singleton.mpr ⟨trivial, trivial⟩
  | assign path => exact List.forall_mem_singleton.mpr ⟨trivial, trivial⟩

theorem define_safe (hlang : lang.Obeys g) {name : String} {params : List String}
    {body : Program Value} (hb : Program.Obeys g lang body) :
    Safe g (Value.Obeys g) (define lang name params body) := by
  refine Keeps.bind safe_scope fun captured hc => ?_
  refine Keeps.bind safe_freshId fun id _ => ?_
  have hf : Function.Obeys g (.defined ⟨id, name, params, body, captured, lang⟩) :=
    .defined (.mk hb.1 hb.2 hc hlang)
  exact Keeps.bind (safe_setScope (hc.insert name (.function hf))) fun _ _ =>
    Keeps.pure (.function hf)

/-- What an instruction leads to: a stack with the promised shapes, or frames whose result goes on
top of one. -/
def Step.Sound (g : Guard) (lang : Language Value) (σ : List Shape) : Step → Prop
  | .next stack => Stack.Obeys g lang stack ∧ (g.total → Fits stack σ)
  | .await frames _ stack =>
    (∀ f ∈ frames, f.Sound g lang) ∧ Stack.Obeys g lang stack ∧
      (g.total → ∀ v, Fits (.value v :: stack) σ)

theorem Fits.push {stack : List Operand} {σ : List Shape}
    (h : ∃ below, σ = .value :: below ∧ Fits stack below) (v : Value) :
    Fits (.value v :: stack) σ := by
  obtain ⟨below, rfl, hb⟩ := h
  exact .value v hb

theorem perform_safe (hin : inner.Sound g) (hlang : lang.Obeys g) {p : Plan} {σ : List Shape}
    (hp : p.Sound g lang σ) : Safe g (Step.Sound g lang σ) (perform inner lang depth p) := by
  obtain ⟨hobeys, hfits⟩ := hp
  cases p with
  | next stack => exact Keeps.pure ⟨hobeys, hfits⟩
  | resolve o use stack =>
    refine Keeps.bind (resolve_safe hin hlang hobeys.1) fun r hr => ?_
    cases r with
    | done v =>
      exact Keeps.bind (use_safe use hr) fun u hu =>
        Keeps.pure ⟨Stack.Obeys.cons hu hobeys.2, fun ht => Fits.push (hfits ht) u⟩
    | waiting frames on =>
      refine Keeps.pure ⟨?_, hobeys.2, fun ht v => Fits.push (hfits ht) v⟩
      exact List.forall_mem_append.mpr ⟨hr, use_frames_sound use⟩
  | call f args stack =>
    exact Keeps.bind (hin.call hobeys.1 hobeys.2.1) fun v hv =>
      Keeps.pure ⟨Stack.Obeys.cons hv hobeys.2.2, fun ht => Fits.push (hfits ht) v⟩
  | define name params body stack =>
    exact Keeps.bind (define_safe hlang hobeys.1) fun v hv =>
      Keeps.pure ⟨Stack.Obeys.cons hv hobeys.2, fun ht => Fits.push (hfits ht) v⟩

theorem step_safe (hin : inner.Sound g) (hlang : lang.Obeys g) {i : Instruction Value}
    (hi : i.Obeys g lang) {stack : List Operand} {σ σ' : List Shape}
    (hs : Stack.Obeys g lang stack) (hf : g.total → Fits stack σ ∧ planned i σ = some σ') :
    Safe g (Step.Sound g lang σ') (step inner lang depth i stack) := by
  refine Keeps.bind safe_scope fun scope hscope => ?_
  refine Keeps.bind (Keeps.ofExcept (plan_sound hlang hscope hi hs hf)) fun p hp => ?_
  exact perform_safe hin hlang hp

/-! ### Code -/

theorem finish_safe (hin : inner.Sound g) (hlang : lang.Obeys g) {stack : List Operand}
    (hs : Stack.Obeys g lang stack) (hsuits : g.total → Suits stack []) :
    Safe g (Progress.Sound g lang) (finish inner lang depth stack) := by
  match stack, hs with
  | [], _ =>
    refine Keeps.fail fun ht => ?_
    obtain ⟨σ, s, hf, he⟩ := hsuits ht
    cases hf
    cases he
  | [o], hs =>
    refine Keeps.bind (resolve_safe hin hlang hs.head) fun p hp => ?_
    cases p with
    | done v => exact Keeps.pure (Value.Obeys.normalise hp)
    | waiting frames on => exact Keeps.pure hp
  | o :: p :: rest, _ =>
    refine Keeps.fail fun ht => ?_
    obtain ⟨σ, s, hf, he⟩ := hsuits ht
    have hlength := hf.length_eq
    cases he
    simp only [List.length_cons, List.length_nil] at hlength
    omega

theorem run_safe (hin : inner.Sound g) (hlang : lang.Obeys g) {code : Program Value}
    (hcode : ∀ i ∈ code, i.Obeys g lang) {stack : List Operand} (hs : Stack.Obeys g lang stack)
    (hsuits : g.total → Suits stack code) :
    Safe g (Progress.Sound g lang) (run inner lang depth code stack) := by
  induction code generalizing stack with
  | nil => exact finish_safe hin hlang hs hsuits
  | cons i rest ih =>
    have hi : i.Obeys g lang := hcode i (List.mem_cons_self ..)
    have hrest : ∀ j ∈ rest, j.Obeys g lang := fun j hj => hcode j (List.mem_cons_of_mem _ hj)
    -- shapes before and after the instruction, of no matter where tables may have gaps
    have hshapes : ∃ σ σ', g.total →
        Fits stack σ ∧ effect i σ = some σ' ∧ ∃ s, effects rest σ' = some [s] := by
      by_cases ht : g.total
      · obtain ⟨σ, s, hf, he⟩ := hsuits ht
        obtain ⟨σ', hi', hr⟩ := Option.bind_eq_some_iff.mp he
        exact ⟨σ, σ', fun _ => ⟨hf, hi', s, hr⟩⟩
      · exact ⟨[], [], fun h => (ht h).elim⟩
    obtain ⟨σ, σ', hshapes⟩ := hshapes
    refine Keeps.bind (force_safe hin hlang (fun d hd => hd) σ' hs
      fun ht => ⟨(hshapes ht).1, (hshapes ht).2.1⟩) fun r hr => ?_
    cases r with
    | suspended d frames on stack =>
      refine Keeps.pure (List.forall_mem_append.mpr ⟨hr.1, List.forall_mem_singleton.mpr ?_⟩)
      refine ⟨⟨hr.2.1, hcode⟩, fun ht v => ?_⟩
      obtain ⟨τ, hfit, heff⟩ := hr.2.2 ht v
      obtain ⟨s, hs'⟩ := (hshapes ht).2.2
      exact ⟨τ, s, hfit, by rw [effects, heff, Option.bind_some, hs']⟩
    | ready stack =>
      have hplanned : g.total → Fits stack (forced (needed i) σ) ∧
          planned i (forced (needed i) σ) = some σ' :=
        fun ht => ⟨hr.2 ht, (effect_inv (hshapes ht).2.1).2⟩
      refine Keeps.bind (step_safe hin hlang hi hr.1 hplanned) fun p hp => ?_
      -- a stack with the shapes that the instruction leaves suits the rest of the code
      have hgo : ∀ {stack}, (g.total → Fits stack σ') → g.total → Suits stack rest := by
        intro stack hfit ht
        obtain ⟨s, hs'⟩ := (hshapes ht).2.2
        exact ⟨σ', s, hfit ht, hs'⟩
      split
      · next frames on stack =>
        refine Keeps.pure (List.forall_mem_append.mpr ⟨hp.1, List.forall_mem_singleton.mpr ?_⟩)
        exact ⟨⟨hp.2.1, hrest⟩, fun ht v => hgo (fun ht => hp.2.2 ht v) ht⟩
      · next id stack =>
        refine Keeps.pure (List.forall_mem_singleton.mpr ⟨⟨hp.1.tail, hrest⟩, fun ht v => ?_⟩)
        refine hgo (fun ht => ?_) ht
        have hfit := (hp.2 ht).set 0 v
        cases hp.2 ht with
        | value _ _ => exact hfit
      · next stack _ => exact ih hrest hp.1 (hgo hp.2)

/-! ### Frames -/

theorem proceed_safe (hin : inner.Sound g) (hlang : lang.Obeys g) {f : Frame} (hf : f.Sound g lang)
    {v : Value} (hv : v.Obeys g) :
    Safe g (Progress.Sound g lang) (proceed inner lang depth f v) := by
  cases f with
  | fill d stack code =>
    exact run_safe hin hlang hf.1.2 (hf.1.1.set d hv) fun ht => hf.2 ht v
  | push stack code =>
    exact run_safe hin hlang hf.1.2 (Stack.Obeys.cons hv hf.1.1) fun ht => hf.2 ht v
  | truth => exact Keeps.pure (.bool _)
  | assign path => exact Keeps.bind (safe_assign path hv) fun _ _ => Keeps.pure hv

theorem resume_safe (hin : inner.Sound g) (hlang : lang.Obeys g) {frames : List Frame}
    (hf : ∀ f ∈ frames, f.Sound g lang) {v : Value} (hv : v.Obeys g) :
    Safe g (Progress.Sound g lang) (resume inner lang depth frames v) := by
  induction frames generalizing v with
  | nil => exact Keeps.pure hv
  | cons f rest ih =>
    have hrest : ∀ h ∈ rest, h.Sound g lang := fun h hh => hf h (List.mem_cons_of_mem _ hh)
    refine Keeps.bind (proceed_safe hin hlang (hf f (List.mem_cons_self ..)) hv) fun p hp => ?_
    cases p with
    | done v => exact ih hrest hp
    | waiting frames on => exact Keeps.pure (List.forall_mem_append.mpr ⟨hp, hrest⟩)

/-! ### Calls -/

theorem enterPromise_safe {p : Promise} (hp : p.Sound g) :
    Safe g (Value.Obeys g) (enterPromise p) :=
  Keeps.bind (safe_defer (d := .promised p) hp) fun _ _ => Keeps.pure (.deferred _)

theorem mapItems_safe (hin : inner.Sound g) {f : Function Value} (hf : f.Obeys g) (i : Nat)
    {items : List Value} (hitems : ∀ v ∈ items, v.Obeys g) :
    Safe g (fun vs => ∀ v ∈ vs, v.Obeys g) (mapItems inner depth f i items) :=
  mapItems_keeps (Value.Obeys.hereditary g) (hin.call hf) i hitems

theorem filterItems_safe (hin : inner.Sound g) {f : Function Value} (hf : f.Obeys g) (i : Nat)
    {items : List Value} (hitems : ∀ v ∈ items, v.Obeys g) :
    Safe g (fun vs => ∀ v ∈ vs, v.Obeys g) (filterItems inner depth f i items) :=
  filterItems_keeps (Value.Obeys.hereditary g) (hin.call hf) i hitems

theorem traversalArguments_meets (name : String) {args : List Value}
    (hargs : ∀ v ∈ args, v.Obeys g) (arrayAt : Nat) :
    Meets (fun r => r.1.Obeys g ∧ ∀ v ∈ r.2, v.Obeys g) g.Mild
      (traversalArguments name args arrayAt) :=
  (traversalArguments_keeps (Value.Obeys.hereditary g) (fun _ _ => id) name hargs arrayAt).mono
    fun _ h => ⟨h.1.ofFunction, h.2⟩

theorem traverse_safe (hin : inner.Sound g) (t : Traversal) {args : List Value}
    (hargs : ∀ v ∈ args, v.Obeys g) :
    Safe g (Value.Obeys g) (traverse inner depth t args) :=
  traverse_keeps (Value.Obeys.hereditary g) (fun _ _ => id) (fun hf => hin.call hf.ofFunction) t
    hargs

theorem callNative_safe (hin : inner.Sound g) {hosts : Hosts} (hhosts : hosts.Sound g)
    (f : Native) {args : List Value} (hargs : ∀ v ∈ args, v.Obeys g) :
    Safe g (Value.Obeys g) (callNative inner depth hosts f args) := by
  unfold callNative
  split
  · next op _ =>
    exact Keeps.ofExcept ((op.apply_meets hargs).weaken fun _ h _ => h)
  · next t _ => exact traverse_safe hin t hargs
  · exact Keeps.bind safe_random fun _ _ => Keeps.pure (.number _)
  · next key _ =>
    refine Keeps.bind (safe_note _) fun _ _ => ?_
    have hanswer := hhosts key args hargs
    revert hanswer
    cases (hosts key args).answer with
    | value v => exact fun ha => Keeps.pure ha
    | error e => exact fun ha => Keeps.fail ha
    | promise p => exact fun ha => enterPromise_safe ha
    | call h args' => exact fun ha => hin.call ha.1 ha.2

theorem enterBody_safe (hin : inner.Sound g) (depth : Nat) {c : Closure Value} (hc : c.Obeys g)
    {scope : Bindings} (hscope : Bindings.Obeys g scope) :
    Safe g (Value.Obeys g) (enterBody inner depth c scope) := by
  obtain ⟨hbody, hcode, _, hlang⟩ := hc
  refine safe_inScope hscope (Keeps.bind (hin.enter hlang ⟨hbody, hcode⟩) fun p hp => ?_)
  cases p with
  | done v => exact Keeps.pure hp
  | waiting frames on =>
    refine Keeps.bind safe_scope fun inside hinside => ?_
    exact Keeps.bind (safe_defer (d := .suspended inside c.language frames on)
      ⟨hinside, hlang, hp⟩) fun _ _ => Keeps.pure (.deferred _)

theorem definedScope_obeys {c : Closure Value} (hc : c.Obeys g) {args : List Value}
    (hargs : ∀ v ∈ args, v.Obeys g) : Bindings.Obeys g (definedScope (.defined c) c args) := by
  obtain ⟨hbody, hcode, hcaptured, hlang⟩ := hc
  exact definedScope_hereditary (Value.Obeys.hereditary g) hcaptured
    (.function (.defined (.mk hbody hcode hcaptured hlang))) hargs

theorem call_safe (hin : inner.Sound g) {hosts : Hosts} (hhosts : hosts.Sound g)
    {f : Function Value} (hf : f.Obeys g) {args : List Value} (hargs : ∀ v ∈ args, v.Obeys g) :
    Safe g (Value.Obeys g) (call inner depth hosts f args) := by
  cases hf with
  | native _ => exact callNative_safe hin hhosts _ hargs
  | defined hc =>
    unfold call
    dsimp only
    split
    · exact enterBody_safe hin _ hc (definedScope_obeys hc hargs)
    · exact Keeps.fail fun _ => id
  | prepared hc =>
    obtain ⟨hbody, hcode, hcaptured, hlang⟩ := hc
    refine enterBody_safe hin depth (.mk hbody hcode hcaptured hlang) ?_
    exact Bindings.Obeys.update hcaptured fun p hp => hargs p.2 (List.of_mem_zip hp).2

/-- Every level of an engine is sound. -/
theorem engine_sound (hg : g.Lawful) {hosts : Hosts} (hhosts : hosts.Sound g) (fuel : Nat) :
    (engine hosts fuel).Sound g := by
  induction fuel with
  | zero => exact ⟨fun _ _ => Keeps.exhausted, fun _ _ => Keeps.exhausted⟩
  | succ fuel ih =>
    refine ⟨fun hlang hcode => ?_, fun hf hargs => call_safe ih hhosts hf hargs⟩
    refine run_safe ih hlang hcode.2 (fun o ho => (List.not_mem_nil ho).elim) fun ht => ?_
    obtain ⟨s, hs⟩ := hg ht _ _ hcode.1
    exact ⟨[], s, .nil, hs⟩

/-! ### Waiting -/

theorem ask_safe {p : Promise} (hp : p.Sound g) : Safe g (Value.Obeys g) (ask p) := by
  induction p with
  | value v => exact Keeps.pure hp
  | error e => exact Keeps.fail hp
  | noting entries next ih => exact Keeps.bind (safe_note entries) fun _ _ => ih hp
  | nested p => exact enterPromise_safe hp

theorem recording_safe (id : Nat) {x : Eval Value} (hx : Safe g (Value.Obeys g) x) :
    Safe g (Value.Obeys g) (recording id x) := by
  intro w hw
  have h := hx w hw
  unfold recording
  split
  · next v w' hxw =>
    rw [hxw] at h
    exact ⟨h.1.record id h.2, h.2⟩
  · next e w' hxw =>
    rw [hxw] at h
    exact ⟨h.1.record id h.2, h.2⟩
  · next w' hxw =>
    rw [hxw] at h
    exact h

/-- Waiting is safe: for a deferred value, for a value that may be deferred, for a suspension. -/
theorem waiting_safe (hg : g.Lawful) {hosts : Hosts} (hhosts : hosts.Sound g) (levels fuel : Nat) :
    (∀ id, Safe g (Value.Obeys g) (await hosts levels fuel id)) ∧
      (∀ v : Value, v.Obeys g → Safe g (Value.Obeys g) (settle hosts levels fuel v)) ∧
      ∀ s : Suspension, s.language.Obeys g → (∀ f ∈ s.frames, f.Sound g s.language) →
        Safe g (Value.Obeys g) (drive hosts levels fuel s) := by
  induction fuel with
  | zero => exact ⟨fun _ => Keeps.exhausted, fun _ _ => Keeps.exhausted, fun _ _ _ => Keeps.exhausted⟩
  | succ fuel ih =>
    obtain ⟨hawait, hsettle, hdrive⟩ := ih
    refine ⟨fun id => ?_, fun v hv => ?_, fun s hlang hframes => ?_⟩
    · unfold await
      have hget : Safe g (World.Sound g) (get : Eval World) := fun _ hw => ⟨hw, hw⟩
      refine Keeps.bind hget fun w hw => ?_
      split
      · exact Keeps.exhausted
      · next result hentry =>
        have hd := hw.deferreds _ (Array.mem_of_getElem? hentry)
        have hresult : Meets (Value.Obeys g) g.Mild result := by
          cases result with
          | ok v => exact hd
          | error e => exact hd
        exact Keeps.bind (Keeps.ofExcept hresult) hsettle
      · next p hentry =>
        have hp := hw.deferreds _ (Array.mem_of_getElem? hentry)
        exact Keeps.bind (recording_safe id (ask_safe hp)) hsettle
      · next scope lang frames on hentry =>
        obtain ⟨hscope, hlang, hframes⟩ := hw.deferreds _ (Array.mem_of_getElem? hentry)
        exact recording_safe id (safe_inScope hscope (hdrive ⟨lang, frames, on⟩ hlang hframes))
    · unfold settle
      split
      · next id => exact hawait id
      · exact Keeps.pure hv
    · unfold drive
      refine Keeps.bind (hawait s.on) fun v hv => ?_
      have hin := engine_sound hg hhosts levels
      refine Keeps.bind (resume_safe hin hlang hframes hv) fun p hp => ?_
      cases p with
      | done v => exact hsettle v hp
      | waiting frames on => exact hdrive ⟨s.language, frames, on⟩ hlang hp

end Machine

end Formula

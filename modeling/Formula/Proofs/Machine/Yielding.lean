import Formula.Proofs.Machine.Finally
import Formula.Proofs.Machine.Paired
import Formula.Proofs.Scope.Kept

/-!
# What a run that gives a value gets past

A run that gives a value gets past each of its instructions: the operands that are needed get
values, and what is asked for is done. Where the code does not write some variables, these keep
their values on the way, also while the run waits, and what lies below the operands of the code
stays where it is. So a program that gives no value wherever the variables are as they were cannot
be among the operands that are needed.
-/

namespace Formula

/-- A name that is not bound. -/
def Bindings.Free (b : Bindings) (name : String) : Prop := Record.get? b name = none

theorem Bindings.kept_free_iff {b b' : Bindings} : Bindings.Kept b.Free b b' ↔ b.Within b' := by
  constructor
  · intro h name v hv
    have hbound : ¬b.Free name := fun hfree => by
      rw [Bindings.Free, hv] at hfree
      cases hfree
    exact (h name hbound).trans hv
  · intro h name hbound
    obtain ⟨v, hv⟩ := Option.ne_none_iff_exists'.mp hbound
    rw [hv, h name v hv]

namespace Eval

variable {α : Type} {b : Bindings} {good : α → Prop} {x : Eval α}

/-- An evaluation that keeps the variables `b`, once it has given a result. -/
theorem Spares.result {a : α} {w w₁ : World} (h : Spares b.Free b good x) (hw : b.Within w.scope)
    (hx : x w = (.ok a, w₁)) : b.Within w₁.scope ∧ good a := by
  have hend := h w (Bindings.kept_free_iff.mpr hw)
  rw [hx] at hend
  exact ⟨Bindings.kept_free_iff.mp hend.1, hend.2⟩

end Eval

namespace Machine

open Eval

section

variable (hosts : Hosts) (lang : Language Value) (waits : Prop) (b : Bindings)

/-- The variables `b` have their values, the programs on the stack do not write them, and no value
is waited for. -/
structure Spared (stack : List Operand) (w : World) : Prop where
  within : b.Within w.scope
  writes : Stack.Writes b.Free stack
  cleared : Cleared stack

/-- A program that gives no value wherever the variables `b` have their values, also not after
waiting where that is allowed. -/
def Futile (code : Program Value) : Prop :=
  ∀ w v w₁, b.Within w.scope → ¬Answers hosts lang waits code w v w₁

/-- Code that puts operands on the stack, for which something holds, in every run that gives a
value. -/
def Brings (code : Program Value) (good : List Operand → Prop) : Prop :=
  ∀ rest stack w, Spared b stack w → Yields hosts lang waits (code ++ rest) stack w →
    ∃ os w', good os ∧ Spared b (os ++ stack) w' ∧ Yields hosts lang waits rest (os ++ stack) w'

end

variable {hosts : Hosts} {lang : Language Value} {waits : Prop} {b : Bindings} {k : Nat}
  {stack os low new : List Operand} {σ σ' : List Shape} {code : Program Value} {v : Value}
  {w w₁ : World}

theorem Spared.value (h : Spared b stack w) (hv : v.isDeferred = false) :
    Spared b (.value v :: stack) w :=
  ⟨h.within, h.writes.cons trivial, cleared_value hv stack⟩

/-! ### Variables -/

theorem gives_spares {p : Progress} (hp : p.Writes b.Free) (hw : b.Within w.scope)
    (h : p.Gives hosts lang waits k w v w₁) : b.Within w₁.scope := by
  induction h with
  | done v w => exact hw
  | @waiting k n fuel on frames p u v w w₁ w₂ w₃ _ hawait hresume _ ih =>
    have hw₁ := (((waiting_scoped hosts n fuel).1 on).spares).result hw hawait
    have hgoes : Spares b.Free b (Progress.Writes b.Free)
        (resume (engine hosts n) lang 0 frames u) :=
      resume_spares (engine_spares b.Free b hosts n) hp u
    obtain ⟨hw₂, hp₂⟩ := hgoes.result hw₁.1 hresume
    exact ih hp₂ hw₂

theorem awaited_spares {id : Nat} (hw : b.Within w.scope)
    (h : Progress.Gives hosts lang waits k (.waiting [] id) w v w₁) : b.Within w₁.scope := by
  have hp : Progress.Writes b.Free (.waiting [] id) := fun f hf => (List.not_mem_nil hf).elim
  exact gives_spares hp hw h

theorem answers_spares (hcode : Program.Writes b.Free code) (hw : b.Within w.scope)
    (h : Answers hosts lang waits code w v w₁) : b.Within w₁.scope := by
  obtain ⟨k, n, depth, p, w', henter, hgives⟩ := h
  have hentered := ((engine_spares b.Free b hosts n).enter lang depth hcode).result hw henter
  exact gives_spares hentered.2 hentered.1 hgives

theorem brought_spares {o : Operand} (ho : o.Made (fun _ => True) (Program.Writes b.Free))
    (hw : b.Within w.scope) (h : Brought hosts lang waits o w v w₁) : b.Within w₁.scope := by
  cases h with
  | entered hcode => exact answers_spares ho hw hcode
  | awaited hgives => exact awaited_spares hw hgives

theorem readied_spares {ds : List Nat} {ready : List Operand} (hw : b.Within w.scope)
    (hs : Stack.Writes b.Free stack) (h : Readied hosts lang waits ds stack w ready w₁) :
    b.Within w₁.scope ∧ Stack.Writes b.Free ready := by
  induction h with
  | refl => exact ⟨hw, hs⟩
  | @bring d o u stack ready w w₁ w₂ hd ho hbrought _ ih =>
    have hmade := hs o (List.mem_of_getElem? ho)
    exact ih (brought_spares hmade hw hbrought) (hs.set d trivial)

theorem performed_spares {p : Plan} (hmade : p.Made (fun _ => True) (Program.Writes b.Free))
    (hquiet : p.Quiet) (hw : b.Within w.scope) (h : Performed hosts lang waits p w new w₁) :
    b.Within w₁.scope ∧ Stack.Writes b.Free new := by
  cases h with
  | next => exact ⟨hw, hmade⟩
  | value stack huse =>
    exact ⟨((use_spares (use_runs hquiet) _).result hw huse).1, hmade.2.cons trivial⟩
  | thunk stack hcode huse =>
    have hw' := answers_spares hmade.1 hw hcode
    exact ⟨((use_spares (use_runs hquiet) _).result hw' huse).1, hmade.2.cons trivial⟩
  | @call n depth f args v _ _ stack hcall =>
    have hkept := (engine_restores hosts n depth f args).spares.result hw hcall
    exact ⟨hkept.1, hmade.2.2.cons trivial⟩
  | define => exact hquiet.elim

theorem clears_spares {stack' : List Operand} (hw : b.Within w.scope)
    (hs : Stack.Writes b.Free stack) (h : Clears hosts lang waits stack w stack' w₁) :
    b.Within w₁.scope ∧ Stack.Writes b.Free stack' := by
  cases h with
  | still => exact ⟨hw, hs⟩
  | top stack hu hgives =>
    exact ⟨awaited_spares hw hgives, hs.tail.cons trivial⟩

/-! ### Instructions -/

/-- An instruction of a run that gives a value keeps the variables that it does not write. -/
theorem yields_instruction {i : Instruction Value} {rest : Program Value} (hi : i.writes = false)
    (hbody : ∀ body, i = .group body → Program.Writes b.Free body) (hs : Spared b stack w)
    (h : Yields hosts lang waits (i :: rest) stack w) :
    ∃ ready w₁ p next w₂ stack' w₃, Readied hosts lang waits (needed i) stack w ready w₁ ∧
      (∀ d ∈ needed i, ∃ v, ready[d]? = some (.value v)) ∧ plan lang w₁.scope i ready = .ok p ∧
      Performed hosts lang waits p w₁ next w₂ ∧ Clears hosts lang waits next w₂ stack' w₃ ∧
      Spared b stack' w₃ ∧ Yields hosts lang waits rest stack' w₃ := by
  obtain ⟨ready, w₁, p, next, w₂, stack', w₃, hready, hvalues, hplan, hperformed, hcleared, hclears,
    hrest⟩ := yields_cons h
  obtain ⟨hw₁, hwrites⟩ := readied_spares hs.within hs.writes hready
  have hmeets : Meets (fun p => p.Made (fun _ => True) (Program.Writes b.Free) ∧ p.Quiet)
      (fun _ => True) (plan lang w₁.scope i ready) := plan_runs hi hbody hwrites
  rw [hplan] at hmeets
  obtain ⟨hw₂, hnext⟩ := performed_spares hmeets.1 hmeets.2 hw₁ hperformed
  obtain ⟨hw₃, hstack⟩ := clears_spares hw₂ hnext hclears
  exact ⟨ready, w₁, p, next, w₂, stack', w₃, hready, hvalues, hplan, hperformed, hclears,
    ⟨hw₃, hstack, hcleared⟩, hrest⟩

/-- In a run that gives a value, an assigned program gives one, which is left on the stack. -/
theorem yields_assignment {path : String} {body rest : Program Value}
    (hroot : b.Free (Bindings.root path)) (hbody : Program.Writes b.Free body)
    (hs : Spared b stack w)
    (h : Yields hosts lang waits (.target path :: .group body :: .binary "=" :: rest) stack w) :
    ¬Futile hosts lang waits b body ∧ ∃ u w', Spared b (.value u :: stack) w' ∧
      Yields hosts lang waits rest (.value u :: stack) w' := by
  obtain ⟨k, n, depth, v, w', h⟩ := h
  rw [run_assignment] at h
  split at h
  · obtain ⟨p, w₁, hfails, -⟩ := h
    cases hfails
  obtain ⟨u, w₁, x, w₂, hcode, huse, stack', w₃, hcleared, hclears, hrest⟩ := finally_used h
  have hw₁ := answers_spares hbody hs.within hcode
  have hwrites : (Use.assign path).Writes b.Free := hroot
  have hw₂ := ((use_spares hwrites u).result hw₁ huse).1
  have hx : (Operand.value x).Made (fun _ => True) (Program.Writes b.Free) := trivial
  obtain ⟨hw₃, hstack⟩ := clears_spares hw₂ (hs.writes.cons hx) hclears
  refine ⟨fun hfutile => hfutile w u w₁ hs.within hcode, ?_⟩
  cases hclears with
  | still => exact ⟨x, _, ⟨hw₃, hstack, hcleared⟩, hrest⟩
  | top => exact ⟨_, _, ⟨hw₃, hstack, hcleared⟩, hrest⟩

theorem yields_definition {name : String} {params : List String} {body rest : Program Value}
    (hname : b.Free name) (hs : Spared b stack w)
    (h : Yields hosts lang waits (.target name ::
      (params.map .target ++ .group body :: .define params.length :: rest)) stack w) :
    ∃ f w', Spared b (.value f :: stack) w' ∧
      Yields hosts lang waits rest (.value f :: stack) w' := by
  obtain ⟨k, n, depth, v, w', p, w₁, h, hgives⟩ := h
  rw [run_definition] at h
  obtain ⟨f, w₂, hdefine, h⟩ := bind_eq_ok h
  have hw₂ := ((define_spares hname params body).result hs.within hdefine).1
  have hf : f.isDeferred = false := by
    obtain ⟨_, _, -, hdefine⟩ := bind_eq_ok hdefine
    obtain ⟨_, _, -, hdefine⟩ := bind_eq_ok hdefine
    obtain ⟨_, _, -, hdefine⟩ := bind_eq_ok hdefine
    cases hdefine
    rfl
  have hkept : Spared b stack w₂ := ⟨hw₂, hs.writes, hs.cleared⟩
  exact ⟨f, w₂, hkept.value hf, k, n, depth, v, w', p, w₁, h, hgives⟩

/-! ### Code -/

/-- A run that gives a value gets past code. -/
theorem code_passes {rest : Program Value} (hcode : Program.Writes b.Free code)
    (hs : Spared b stack w) (h : Yields hosts lang waits (code ++ rest) stack w) :
    ∃ stack' w', Spared b stack' w' ∧ Yields hosts lang waits rest stack' w' := by
  induction hcode generalizing stack w with
  | nil => exact ⟨stack, w, hs, h⟩
  | cons hi hbody _ _ ih =>
    obtain ⟨_, _, _, _, _, stack', w₁, -, -, -, -, -, hs₁, h₁⟩ := yields_instruction hi hbody hs h
    exact ih hs₁ h₁
  | assign hroot hbody _ _ ih =>
    obtain ⟨-, u, w₁, hs₁, h₁⟩ := yields_assignment hroot hbody hs h
    exact ih hs₁ h₁
  | define params body hname _ ih =>
    rw [List.cons_append, List.append_assoc] at h
    obtain ⟨f, w₁, hs₁, h₁⟩ := yields_definition hname hs h
    exact ih hs₁ h₁

/-! ### Operands above others -/

/-- Operands above others are brought to values. -/
theorem readied_low {ds : List Nat} {ready : List Operand} (hds : ∀ d ∈ ds, d < σ.length)
    (hf : Fits os σ) (h : Readied hosts lang waits ds (os ++ low) w ready w₁) :
    ∃ os' σ', ready = os' ++ low ∧ Fits os' σ' ∧ forced ds σ' = forced ds σ ∧
      σ'.length = σ.length := by
  generalize hstack : os ++ low = stack at h
  induction h generalizing os σ with
  | refl => exact ⟨os, σ, hstack.symm, hf, rfl, rfl⟩
  | @bring d o u stack ready w w₁ w₂ hd ho _ _ ih =>
    subst hstack
    have hlt : d < os.length := hf.length_eq ▸ hds d hd
    have hset : os.set d (.value u) ++ low = (os ++ low).set d (.value u) :=
      (List.set_append_left d _ hlt).symm
    have hlength : ∀ c ∈ ds, c < (σ.set d .value).length := fun c hc => by
      rw [List.length_set]
      exact hds c hc
    obtain ⟨os', σ', rfl, hf', hforced, hlength'⟩ := ih hlength (hf.set d u) hset
    rw [forced_set hd] at hforced
    rw [List.length_set] at hlength'
    exact ⟨os', σ', rfl, hf', hforced, hlength'⟩

/-- Operands that are values fit shapes that say so. -/
theorem fits_forced {ds : List Nat} (hf : Fits os σ)
    (hvalues : ∀ d ∈ ds, ∃ v, os[d]? = some (.value v)) : Fits os (forced ds σ) := by
  unfold forced
  induction ds generalizing σ with
  | nil => exact hf
  | cons d ds ih =>
    obtain ⟨⟨v, hv⟩, hrest⟩ := List.forall_mem_cons.mp hvalues
    obtain ⟨hd, hget⟩ := List.getElem?_eq_some_iff.mp hv
    have hsame : os.set d (.value v) = os := by rw [← hget, List.set_getElem_self]
    have hset : Fits os (σ.set d .value) := hsame ▸ hf.set d v
    exact ih hset hrest

/-- What a plan leaves, above what lies below. -/
theorem performed_low {p : Plan} (hp : p.Fits σ)
    (h : Performed hosts lang waits (p.above low) w new w₁) :
    ∃ os', new = os' ++ low ∧ Fits os' σ := by
  cases p with
  | next stack =>
    cases h
    exact ⟨stack, rfl, hp⟩
  | resolve o use stack =>
    obtain ⟨below, rfl, hf⟩ := hp
    cases h with
    | @value _ _ u => exact ⟨.value u :: stack, rfl, .value u hf⟩
    | @thunk _ _ _ u => exact ⟨.value u :: stack, rfl, .value u hf⟩
  | call f args stack =>
    obtain ⟨below, rfl, hf⟩ := hp
    cases h with
    | @call _ _ _ _ u => exact ⟨.value u :: stack, rfl, .value u hf⟩
  | define name params body stack =>
    obtain ⟨below, rfl, hf⟩ := hp
    cases h with
    | @define _ _ _ u => exact ⟨.value u :: stack, rfl, .value u hf⟩

/-- Only an operand above the others is waited for. -/
theorem clears_low {stack' : List Operand} (hf : Fits os σ) (hlow : Cleared low)
    (h : Clears hosts lang waits (os ++ low) w stack' w₁) :
    ∃ os', stack' = os' ++ low ∧ Fits os' σ := by
  generalize hstack : os ++ low = stack at h
  cases h with
  | still => exact ⟨os, hstack.symm, hf⟩
  | @top k id u _ _ below =>
    cases hf with
    | nil => exact (hlow id below hstack).elim
    | value v hf =>
      cases hstack
      exact ⟨_, rfl, .value u hf⟩
    | thunk => cases hstack
    | object => cases hstack

/-- An instruction that writes nothing leaves the shapes of its effect, above what lies below. -/
theorem instruction_low {i : Instruction Value} {rest : Program Value} (hi : i.writes = false)
    (hbody : ∀ body, i = .group body → Program.Writes b.Free body) (he : effect i σ = some σ')
    (hf : Fits os σ) (hlow : Cleared low) (hs : Spared b (os ++ low) w)
    (h : Yields hosts lang waits (i :: rest) (os ++ low) w) :
    ∃ os' w', Fits os' σ' ∧ Spared b (os' ++ low) w' ∧
      Yields hosts lang waits rest (os' ++ low) w' := by
  obtain ⟨ready, w₁, p, next, w₂, stack', w₃, hready, hvalues, hplan, hperformed, hclears, hs',
    hrest⟩ := yields_instruction hi hbody hs h
  have hneeded := (effect_inv he).1
  obtain ⟨os₁, σ₁, rfl, hf₁, hforced, hlength⟩ := readied_low hneeded hf hready
  have hvalues₁ : ∀ d ∈ needed i, ∃ v, os₁[d]? = some (.value v) := fun d hd => by
    have hlt : d < os₁.length := by
      rw [hf₁.length_eq, hlength]
      exact hneeded d hd
    obtain ⟨v, hv⟩ := hvalues d hd
    rw [List.getElem?_append_left hlt] at hv
    exact ⟨v, hv⟩
  have hf₁ : Fits os₁ (forced (needed i) σ) := hforced ▸ fits_forced hf₁ hvalues₁
  -- the plan does not look below the operands
  obtain ⟨hfits, habove⟩ := @plan_above _ _ _ lang w₁.scope _ hf₁ he low
  rw [hplan] at habove
  cases hp : plan lang w₁.scope i os₁ with
  | error e =>
    rw [hp] at habove
    cases habove
  | ok q =>
    rw [hp] at habove
    cases habove
    obtain ⟨os₂, rfl, hf₂⟩ := performed_low (hfits.result hp) hperformed
    obtain ⟨os', rfl, hf'⟩ := clears_low hf₂ hlow hclears
    exact ⟨os', w₃, hf', hs', hrest⟩

/-- Code leaves the shapes of its effects, above what lies below. -/
theorem code_low {rest : Program Value} (hcode : Program.Writes b.Free code)
    (he : effects code σ = some σ') (hf : Fits os σ) (hlow : Cleared low)
    (hs : Spared b (os ++ low) w) (h : Yields hosts lang waits (code ++ rest) (os ++ low) w) :
    ∃ os' w', Fits os' σ' ∧ Spared b (os' ++ low) w' ∧
      Yields hosts lang waits rest (os' ++ low) w' := by
  induction hcode generalizing os σ w with
  | nil =>
    cases he
    exact ⟨os, w, hf, hs, h⟩
  | cons hi hbody _ _ ih =>
    obtain ⟨σ₁, he₁, he⟩ := Option.bind_eq_some_iff.mp he
    obtain ⟨os₁, w₁, hf₁, hs₁, h₁⟩ := instruction_low hi hbody he₁ hf hlow hs h
    exact ih he hf₁ hs₁ h₁
  | @assign path body code hroot hbody _ _ ih =>
    have htarget : effect (.target path) σ = some (.value :: σ) := rfl
    have hgroup : effect (.group body) (.value :: σ) = some (.thunk :: .value :: σ) := rfl
    rw [effects, htarget, Option.bind_some, effects, hgroup, Option.bind_some, effects,
      effect_assign, Option.bind_some] at he
    obtain ⟨-, u, w₁, hs₁, h₁⟩ := yields_assignment hroot hbody hs h
    have hf₁ : Fits (.value u :: os) (.value :: σ) := .value u hf
    exact ih he hf₁ hs₁ h₁
  | @define name params body code hname _ ih =>
    have htarget : effect (.target name) σ = some (.value :: σ) := rfl
    have hgroup : ∀ σ, effect (.group body) σ = some (.thunk :: σ) := fun _ => rfl
    rw [effects, htarget, Option.bind_some, effects_targets, effects, hgroup, Option.bind_some,
      effects, effect_define, Option.bind_some] at he
    rw [List.cons_append, List.append_assoc] at h
    obtain ⟨f, w₁, hs₁, h₁⟩ := yields_definition hname hs h
    have hf₁ : Fits (.value f :: os) (.value :: σ) := .value f hf
    exact ih he hf₁ hs₁ h₁

/-! ### Needed operands -/

/-- An operand whose program gives no value stays what it is. -/
theorem readied_futile {ds : List Nat} {d : Nat} {ready : List Operand}
    (hget : stack[d]? = some (.thunk code)) (hcode : Futile hosts lang waits b code)
    (hw : b.Within w.scope) (hs : Stack.Writes b.Free stack)
    (h : Readied hosts lang waits ds stack w ready w₁) : ready[d]? = some (.thunk code) := by
  induction h with
  | refl => exact hget
  | @bring c o u stack ready w w₁ w₂ hc ho hbrought _ ih =>
    have hw₁ := brought_spares (hs o (List.mem_of_getElem? ho)) hw hbrought
    refine ih ?_ hw₁ (hs.set c trivial)
    have hcd : c ≠ d := by
      rintro rfl
      cases ho.symm.trans hget
      cases hbrought with
      | entered hanswers => exact hcode _ _ _ hw hanswers
    rw [List.getElem?_set_ne hcd, hget]

/-- No run gives a value that needs an operand whose program gives none. -/
theorem not_yields_needed {i : Instruction Value} {rest : Program Value} {d : Nat}
    (hd : d ∈ needed i) (hget : stack[d]? = some (.thunk code))
    (hcode : Futile hosts lang waits b code) (hs : Spared b stack w) :
    ¬Yields hosts lang waits (i :: rest) stack w := by
  intro h
  obtain ⟨ready, _, _, _, _, _, _, hready, hvalues, -⟩ := yields_cons h
  obtain ⟨v, hv⟩ := hvalues d hd
  cases hv.symm.trans (readied_futile hget hcode hs.within hs.writes hready)

/-- Values stay what they are, if none of those that are needed is deferred. -/
theorem readied_values {vs : List Value} {ds : List Nat} (hds : ∀ d ∈ ds, d < vs.length)
    (hvs : waits → ∀ v ∈ vs, v.isDeferred = false) {ready : List Operand}
    (h : Readied hosts lang waits ds (vs.reverse.map .value ++ stack) w ready w₁) :
    ready = vs.reverse.map .value ++ stack ∧ w₁ = w := by
  cases h with
  | refl => exact ⟨rfl, rfl⟩
  | @bring d o u _ _ _ _ _ hd ho hbrought _ =>
    have hlt : d < vs.reverse.length := by simpa using hds d hd
    rw [List.getElem?_append_left (by simpa using hlt), List.getElem?_map,
      List.getElem?_eq_getElem hlt] at ho
    cases ho
    generalize hv : vs.reverse[d] = v at hbrought
    cases hbrought with
    | awaited hgives =>
      have hmem : vs.reverse[d] ∈ vs := List.mem_reverse.mp (List.getElem_mem hlt)
      have hready := hvs (gives_waits hgives) _ hmem
      rw [hv] at hready
      cases hready

theorem clears_value {u : Value} {stack' : List Operand} (hu : waits → u.isDeferred = false)
    (h : Clears hosts lang waits (.value u :: stack) w stack' w₁) :
    u.isDeferred = false ∧ stack' = .value u :: stack ∧ w₁ = w := by
  cases h with
  | still _ hcleared =>
    refine ⟨?_, rfl, rfl⟩
    cases u with
    | deferred id => exact (hcleared id stack rfl).elim
    | _ => rfl
  | top _ _ hgives => cases hu (gives_waits hgives)

/-! ### Code that brings operands -/

namespace Brings

variable {more : Program Value} {good good' : List Operand → Prop}

theorem mono (h : Brings hosts lang waits b code good) (hgood : ∀ os, good os → good' os) :
    Brings hosts lang waits b code good' := by
  intro rest stack w hs hrun
  obtain ⟨os, w', hos, hs', hrest⟩ := h rest stack w hs hrun
  exact ⟨os, w', hgood os hos, hs', hrest⟩

/-- Code that no run gets past. -/
theorem never (h : Brings hosts lang waits b code fun _ => False) :
    Brings hosts lang waits b (code ++ more) good := by
  intro rest stack w hs hrun
  rw [List.append_assoc] at hrun
  obtain ⟨_, _, hno, -, -⟩ := h (more ++ rest) stack w hs hrun
  exact hno.elim

theorem of_effects (hcode : Program.Writes b.Free code) (he : effects code [] = some σ) :
    Brings hosts lang waits b code (Fits · σ) := by
  intro rest stack w hs hrun
  exact code_low hcode he (show Fits [] [] from .nil) hs.cleared hs hrun

/-- Code after operands that were brought. -/
theorem append (h : Brings hosts lang waits b code good)
    (h' : Brings hosts lang waits b more good') :
    Brings hosts lang waits b (code ++ more) fun os =>
      ∃ os₁ os₂, os = os₂ ++ os₁ ∧ good os₁ ∧ good' os₂ := by
  intro rest stack w hs hrun
  rw [List.append_assoc] at hrun
  obtain ⟨os₁, w₁, hos₁, hs₁, hrun₁⟩ := h (more ++ rest) stack w hs hrun
  obtain ⟨os₂, w₂, hos₂, hs₂, hrun₂⟩ := h' rest (os₁ ++ stack) w₁ hs₁ hrun₁
  rw [← List.append_assoc] at hs₂ hrun₂
  exact ⟨os₂ ++ os₁, w₂, ⟨os₁, os₂, rfl, hos₁, hos₂⟩, hs₂, hrun₂⟩

/-- No run gets past code after which there is code that no run gets past. -/
theorem never_after (hcode : Program.Writes b.Free code)
    (h : Brings hosts lang waits b more fun _ => False) :
    Brings hosts lang waits b (code ++ more) fun _ => False := by
  intro rest stack w hs hrun
  rw [List.append_assoc] at hrun
  obtain ⟨stack', w', hs', hrun'⟩ := code_passes hcode hs hrun
  obtain ⟨_, _, hno, -, -⟩ := h rest stack' w' hs' hrun'
  exact hno.elim

theorem group {body : Program Value} (hbody : Program.Writes b.Free body) :
    Brings hosts lang waits b [.group body] (· = [.thunk body]) := by
  intro rest stack w hs hrun
  rw [List.singleton_append] at hrun
  simp only [Yields, run_group] at hrun
  exact ⟨[.thunk body], w, rfl,
    ⟨hs.within, hs.writes.cons hbody, fun id low h => by cases h⟩, hrun⟩

/-- No run gets past an instruction that needs an operand whose program gives no value. -/
theorem needed (h : Brings hosts lang waits b code good) {i : Instruction Value}
    (hi : ∀ os, good os → ∃ d ∈ needed i, ∃ body, os[d]? = some (.thunk body) ∧
      Futile hosts lang waits b body) :
    Brings hosts lang waits b (code ++ [i]) fun _ => False := by
  intro rest stack w hs hrun
  rw [List.append_assoc, List.singleton_append] at hrun
  obtain ⟨os, w', hos, hs', hrun'⟩ := h (i :: rest) stack w hs hrun
  obtain ⟨d, hd, body, hget, hbody⟩ := hi os hos
  have hget : (os ++ stack)[d]? = some (.thunk body) := by
    rw [List.getElem?_append_left (List.getElem?_eq_some_iff.mp hget).1, hget]
  exact (not_yields_needed hd hget hbody hs' hrun').elim

/-- An instruction runs on values that were brought. -/
theorem plans {vs : List Value} (h : Brings hosts lang waits b code (· = vs.reverse.map .value))
    {i : Instruction Value} {rest : Program Value} (hneeded : ∀ d ∈ Machine.needed i, d < vs.length)
    (hvs : waits → ∀ v ∈ vs, v.isDeferred = false) (hs : Spared b stack w)
    (hrun : Yields hosts lang waits (code ++ [i] ++ rest) stack w) :
    ∃ w₁ p next w₂ stack' w₃, Spared b stack w₁ ∧
      plan lang w₁.scope i (vs.reverse.map .value ++ stack) = .ok p ∧
      Performed hosts lang waits p w₁ next w₂ ∧ Clears hosts lang waits next w₂ stack' w₃ ∧
      Yields hosts lang waits rest stack' w₃ := by
  rw [List.append_assoc, List.singleton_append] at hrun
  obtain ⟨_, w', rfl, hs', hrun'⟩ := h (i :: rest) stack w hs hrun
  obtain ⟨ready, w₁, p, next, w₂, stack', w₃, hready, -, hplan, hperformed, -, hclears, hrest⟩ :=
    yields_cons hrun'
  obtain ⟨rfl, rfl⟩ := readied_values hneeded hvs hready
  exact ⟨w₁, p, next, w₂, stack', w₃, ⟨hs'.within, hs.writes, hs.cleared⟩, hplan, hperformed,
    hclears, hrest⟩

/-- An instruction that takes values off and pushes a value. -/
theorem next {vs : List Value} (h : Brings hosts lang waits b code (· = vs.reverse.map .value))
    {i : Instruction Value} {u : Value} (hneeded : ∀ d ∈ Machine.needed i, d < vs.length)
    (hvs : waits → ∀ v ∈ vs, v.isDeferred = false) (hu : waits → u.isDeferred = false)
    (hplan : ∀ scope stack, b.Within scope →
      plan lang scope i (vs.reverse.map .value ++ stack) = .ok (.next (.value u :: stack))) :
    Brings hosts lang waits b (code ++ [i]) (· = [.value u]) := by
  intro rest stack w hs hrun
  obtain ⟨w₁, p, next, w₂, stack', w₃, hs₁, hp, hperformed, hclears, hrest⟩ :=
    h.plans hneeded hvs hs hrun
  rw [hplan w₁.scope stack hs₁.within] at hp
  cases hp
  cases hperformed
  obtain ⟨hready, rfl, rfl⟩ := clears_value hu hclears
  exact ⟨[.value u], w₃, rfl, hs₁.value hready, hrest⟩

/-- An instruction that calls a function with values, where a call that gives a value changes
nothing. -/
theorem call {vs : List Value} (h : Brings hosts lang waits b code (· = vs.reverse.map .value))
    {i : Instruction Value} {f : Function Value} (hneeded : ∀ d ∈ Machine.needed i, d < vs.length)
    (hvs : waits → ∀ v ∈ vs, v.isDeferred = false)
    (hplan : ∀ scope stack,
      plan lang scope i (vs.reverse.map .value ++ stack) = .ok (.call f vs stack))
    (hcall : ∀ n depth w u w₁, (engine hosts n).call depth f vs w = (.ok u, w₁) →
      (waits → u.isDeferred = false) ∧ good [.value u] ∧ w₁ = w) :
    Brings hosts lang waits b (code ++ [i]) good := by
  intro rest stack w hs hrun
  obtain ⟨w₁, p, next, w₂, stack', w₃, hs₁, hp, hperformed, hclears, hrest⟩ :=
    h.plans hneeded hvs hs hrun
  rw [hplan] at hp
  cases hp
  cases hperformed with
  | @call n depth _ _ u _ _ _ hresult =>
    obtain ⟨hu, hgood, rfl⟩ := hcall n depth w₁ u w₂ hresult
    obtain ⟨hready, rfl, rfl⟩ := clears_value hu hclears
    exact ⟨[.value u], w₃, hgood, hs₁.value hready, hrest⟩

/-- No run gets past an instruction that cannot be planned. -/
theorem unplanned {vs : List Value} (h : Brings hosts lang waits b code (· = vs.reverse.map .value))
    {i : Instruction Value} {s : EvalError} (hneeded : ∀ d ∈ Machine.needed i, d < vs.length)
    (hvs : waits → ∀ v ∈ vs, v.isDeferred = false)
    (hplan : ∀ scope stack, plan lang scope i (vs.reverse.map .value ++ stack) = .error s) :
    Brings hosts lang waits b (code ++ [i]) fun _ => False := by
  intro rest stack w hs hrun
  obtain ⟨w₁, p, next, w₂, stack', w₃, hs₁, hp, -⟩ := h.plans hneeded hvs hs hrun
  rw [hplan] at hp
  cases hp

end Brings

/-- The one operand that is left is a program that gives no value. -/
def Barren (hosts : Hosts) (lang : Language Value) (waits : Prop) (b : Bindings)
    (os : List Operand) : Prop :=
  ∃ body, os = [.thunk body] ∧ Futile hosts lang waits b body

/-- A program gives no value if it leaves a program that gives none, or nothing gets past it. -/
theorem Brings.futile (h : Brings hosts lang waits b code (Barren hosts lang waits b)) :
    Futile hosts lang waits b code := by
  rintro w v w₁ hw ⟨k, n, depth, hcode⟩
  cases n with
  | zero =>
    obtain ⟨p, w', hno, -⟩ := hcode
    cases hno
  | succ n =>
    have hs : Spared b [] w :=
      ⟨hw, fun _ ho => (List.not_mem_nil ho).elim, fun _ _ hno => by cases hno⟩
    have hrun : Yields hosts lang waits (code ++ []) [] w := ⟨k, n, depth, v, w₁, by
      rw [List.append_nil]
      exact hcode⟩
    obtain ⟨_, w', ⟨body, rfl, hbody⟩, hs', k', n', depth', u, w₂, p, w₃, hfinish, hgives⟩ :=
      h [] [] w hs hrun
    obtain ⟨q, w₄, henter, hlast⟩ := bind_eq_ok hfinish
    cases q with
    | done x => exact hbody w' x w₄ hs'.within ⟨0, n', depth', _, w₄, henter, .done x w₄⟩
    | waiting frames on =>
      cases hlast
      exact hbody w' u w₂ hs'.within ⟨k', n', depth', _, w₃, henter, hgives⟩

end Machine

end Formula

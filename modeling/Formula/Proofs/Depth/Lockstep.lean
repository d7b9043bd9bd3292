import Formula.Proofs.Depth.Plans
import Formula.Proofs.Depth.Watched
import Formula.Proofs.Machine.Halting

/-!
# Two limits in lockstep

A run and the same run under another limit of the call depth do the same until the first one has
more calls active than the other limit allows. At that point the other run ends, and nothing that
follows in the first run takes back that its calls were nested so deep.
-/

namespace Formula

/-- A value of a run in languages that all have one limit of the call depth. -/
abbrev Value.At (limit : Nat) (v : Value) : Prop := v.Internal False (· = limit)

abbrev Language.At (limit : Nat) (lang : Language Value) : Prop := lang.Internal False (· = limit)

abbrev Program.At (limit : Nat) (code : Program Value) : Prop :=
  ∀ i ∈ code, i.Internal False (· = limit)

abbrev World.At (limit : Nat) (w : World) : Prop := w.Internal False (· = limit)

/-- A world is another one under a limit, whatever has been noted. -/
structure World.Under (d : Nat) (w w' : World) : Prop where
  scope : w'.scope = Bindings.relimit d w.scope
  deferreds : w'.deferreds = w.deferreds
  nextId : w'.nextId = w.nextId
  seed : w'.seed = w.seed

/-- A run ends for lack of levels or of call depth. -/
def Stop.Overran : Stop EvalError → Prop
  | .exhausted | .error (.callDepth _) => True
  | _ => False

namespace Eval

variable {α β : Type}

/-- The outcomes of a watched run and of the run under a limit `d`: the first run overran its own
limit, or both are the same, or the first run was too deep for the limit `d`. -/
inductive Matched (limit d active : Nat) (good : α → Prop) (t : α → α) (w w' : World) :
    Except (Stop EvalError) α × World → Except (Stop EvalError) α × World → Prop
  | overran {s : Stop EvalError} {w₁ : World} {r' : Except (Stop EvalError) α × World} :
      s.Overran → (d ≤ limit → ∃ s', s'.Overran ∧ r'.1 = .error s') →
      Matched limit d active good t w w' (.error s, w₁) r'
  | same {o : Except (Stop EvalError) α} {w₁ w₁' : World} {marks : List Value} :
      Nested marks → w₁.log = w.log ++ marks → peak active marks ≤ d →
      (∀ a, o = .ok a → good a) → w₁.At limit → w₁.Under d w₁' → w₁'.log = w'.log →
      Matched limit d active good t w w' (o, w₁) (o.map t, w₁')
  | deeper {o : Except (Stop EvalError) α} {w₁ w₁' : World} (marks : List Value) :
      d < limit → w₁.log = w.log ++ marks → d < peak active marks →
      Matched limit d active good t w w' (o, w₁) (.error (.error (.callDepth d)), w₁')

/-- What follows a part of a run in which no call has reached the limit `d`. -/
theorem Matched.after {limit d active : Nat} {good : α → Prop} {t : α → α}
    {w w' w₁ w₁' : World} {r r' : Except (Stop EvalError) α × World} {marks : List Value}
    (h : Matched limit d active good t w₁ w₁' r r') (hnested : Nested marks)
    (hlog : w₁.log = w.log ++ marks) (hpeak : peak active marks ≤ d) (hlog' : w₁'.log = w'.log) :
    Matched limit d active good t w w' r r' := by
  cases h with
  | overran hover hover' => exact .overran hover hover'
  | @same _ _ _ more hnested₂ hlog₂ hpeak₂ hgood hat hunder hlog₂' =>
    refine .same (hnested.append hnested₂) ?_ ?_ hgood hat hunder (hlog₂'.trans hlog')
    · rw [hlog₂, hlog, List.append_assoc]
    · rw [hnested.peak_append]
      exact max_le hpeak hpeak₂
  | deeper more hlt hlog₂ hpeak₂ =>
    refine .deeper (marks ++ more) hlt ?_ ?_
    · rw [hlog₂, hlog, List.append_assoc]
    · rw [hnested.peak_append]
      exact hpeak₂.trans_le (le_max_right _ _)

/-- A watched evaluation and the same under a limit `d`, in lockstep. -/
def Lockstep (limit d active : Nat) (good : α → Prop) (t : α → α) (x y : Eval α) : Prop :=
  ∀ w w', w.At limit → w.Under d w' → Matched limit d active good t w w' (x w) (y w')

namespace Lockstep

variable {limit d active : Nat} {good : α → Prop} {good' : β → Prop} {t : α → α} {u : β → β}

/-- Evaluations that call nothing and leave what has been noted alone. -/
theorem quiet {x y : Eval α} (hd : active ≤ d)
    (h : ∀ w w', w.At limit → w.Under d w' → (x w).2.log = w.log ∧ (y w').2.log = w'.log ∧
      (y w').1 = (x w).1.map t ∧ (∀ a, (x w).1 = .ok a → good a) ∧ (x w).2.At limit ∧
      (x w).2.Under d (y w').2) : Lockstep limit d active good t x y := by
  intro w w' hw hunder
  obtain ⟨hlog, hlog', houtcome, hgood, hat, hunder'⟩ := h w w' hw hunder
  rcases hx : x w with ⟨o, w₁⟩
  rcases hy : y w' with ⟨o', w₁'⟩
  rw [hx] at hlog houtcome hgood hat hunder'
  rw [hy] at hlog' houtcome hunder'
  dsimp only at hlog hlog' houtcome hgood hat hunder'
  subst houtcome
  exact .same .nil (by rw [hlog, List.append_nil]) hd hgood hat hunder' hlog'

theorem pure (hd : active ≤ d) {a : α} (h : good a) :
    Lockstep limit d active good t (Pure.pure a) (Pure.pure (t a)) :=
  quiet hd fun _ _ hw hunder => ⟨rfl, rfl, rfl, fun _ h' => by cases h'; exact h, hw, hunder⟩

theorem pure_eq (hd : active ≤ d) {a a' : α} (h : good a) (ha : a' = t a) :
    Lockstep limit d active good t (Pure.pure a) (Pure.pure a') := ha ▸ pure hd h

theorem fail (hd : active ≤ d) (e : EvalError) :
    Lockstep limit d active good t (Eval.fail e) (Eval.fail e) :=
  quiet hd fun _ _ hw hunder => ⟨rfl, rfl, rfl, (fun _ h => by cases h), hw, hunder⟩

theorem exhausted : Lockstep limit d active good t Eval.exhausted Eval.exhausted :=
  fun _ _ _ _ => .overran trivial fun _ => ⟨.exhausted, trivial, rfl⟩

theorem ofExcept {mild : EvalError → Prop} {x y : Except EvalError α} (hd : active ≤ d)
    (hx : Meets good mild x) (h : y = x.map t) :
    Lockstep limit d active good t (Eval.ofExcept x) (Eval.ofExcept y) := by
  subst h
  cases x with
  | error e => exact fail hd e
  | ok a => exact pure hd hx

theorem bind {x y : Eval α} {f g : α → Eval β} (hxy : Lockstep limit d active good t x y)
    (hadds : ∀ a, (f a).Adds) (hfg : ∀ a, good a → Lockstep limit d active good' u (f a) (g (t a))) :
    Lockstep limit d active good' u (x >>= f) (y >>= g) := by
  intro w w' hw hunder
  have h := hxy w w' hw hunder
  rcases hx : x w with ⟨o, w₁⟩
  rcases hy : y w' with ⟨o', w₁'⟩
  rw [hx, hy] at h
  cases h with
  | overran hover hover' =>
    rw [bind_of_error hx]
    refine .overran hover fun hle => ?_
    obtain ⟨s', hs', rfl⟩ := hover' hle
    exact ⟨s', hs', by rw [bind_of_error hy]⟩
  | same hnested hlog hpeak hgood hat hunder' hlog' =>
    cases o with
    | error s =>
      rw [bind_of_error hx, bind_of_error hy]
      exact .same (o := .error s) hnested hlog hpeak (fun _ h => by cases h) hat hunder' hlog'
    | ok a =>
      rw [bind_of_ok hx, bind_of_ok hy]
      exact (hfg a (hgood a rfl) w₁ w₁' hat hunder').after hnested hlog hpeak hlog'
  | deeper marks hlt hlog hpeak =>
    rw [bind_of_error hy]
    rcases hb : (x >>= f) w with ⟨o₂, w₂⟩
    suffices hmore : w₁.log <+: w₂.log by
      obtain ⟨more, hmore⟩ := hmore
      refine .deeper (marks ++ more) hlt ?_ (hpeak.trans_le (peak_le_append active _ more))
      rw [← hmore, hlog, List.append_assoc]
    cases o with
    | error s =>
      rw [bind_of_error hx] at hb
      cases hb
      exact List.prefix_refl _
    | ok a =>
      have hgrows := hadds a w₁
      rw [bind_of_ok hx] at hb
      rwa [hb] at hgrows

/-! ### The state -/

theorem scope (hd : active ≤ d) :
    Lockstep limit d active (fun b => ∀ p ∈ b, p.2.At limit) (Bindings.relimit d) Eval.scope
      Eval.scope :=
  quiet hd fun _ _ hw hunder =>
    ⟨rfl, rfl, congrArg Except.ok hunder.scope, fun _ h => by cases h; exact hw, hw, hunder⟩

theorem setScope (hd : active ≤ d) {b : Bindings} (hb : ∀ p ∈ b, p.2.At limit) :
    Lockstep limit d active (fun _ => True) id (Eval.setScope b)
      (Eval.setScope (Bindings.relimit d b)) :=
  quiet hd fun _ _ _ hunder => ⟨rfl, rfl, rfl, fun _ _ => trivial, hb, { hunder with scope := rfl }⟩

theorem freshId (hd : active ≤ d) :
    Lockstep limit d active (fun _ => True) id Eval.freshId Eval.freshId :=
  quiet hd fun _ _ hw hunder =>
    ⟨rfl, rfl, congrArg Except.ok hunder.nextId, fun _ _ => trivial, hw,
      { hunder with nextId := congrArg (· + 1) hunder.nextId }⟩

theorem random (hd : active ≤ d) :
    Lockstep limit d active (fun _ => True) id Eval.random Eval.random := by
  -- the seed is generalised so that nothing computes the next one
  have hreseed : ∀ {w w' : World} (x : Float) (seed : UInt64), w.At limit → w.Under d w' →
      Matched limit d active (fun _ => True) id w w' (.ok x, { w with seed })
        (.ok x, { w' with seed }) := fun _ _ hw hunder =>
    .same (o := .ok _) .nil (List.append_nil _).symm hd (fun _ _ => trivial) hw
      { hunder with seed := rfl } rfl
  intro w w' hw hunder
  rw [random_eq, random_eq, hunder.seed]
  exact hreseed _ _ hw hunder

theorem assign (hd : active ≤ d) (path : String) {v : Value} (hv : v.At limit) :
    Lockstep limit d active (fun _ => True) id (Eval.assign path v)
      (Eval.assign path (v.relimit d)) := by
  refine bind (scope hd) (fun _ => .bind (.ofExcept _) fun _ => .setScope _) fun b hb => ?_
  have hassigned := Bindings.assignPath_fieldwise
    (Value.Internal.partwise False (· = limit)).fieldwise hb path hv
  exact bind (ofExcept hd hassigned (Bindings.assignPath_relimit b path v)) (fun _ => .setScope _)
    fun b' hb' => setScope hd hb'

theorem inScope {b : Bindings} {x y : Eval α} (hb : ∀ p ∈ b, p.2.At limit)
    (hxy : Lockstep limit d active good t x y) :
    Lockstep limit d active good t (Eval.inScope b x) (Eval.inScope (Bindings.relimit d b) y) := by
  intro w w' hw hunder
  have h := hxy { w with scope := b } { w' with scope := Bindings.relimit d b } hb
    { hunder with scope := rfl }
  unfold Eval.inScope
  rcases hx : x { w with scope := b } with ⟨o, w₁⟩
  rcases hy : y { w' with scope := Bindings.relimit d b } with ⟨o', w₁'⟩
  rw [hx, hy] at h
  cases h with
  | overran hover hover' => exact .overran hover hover'
  | same hnested hlog hpeak hgood hat hunder' hlog' =>
    exact .same hnested hlog hpeak hgood hw { hunder' with scope := hunder.scope } hlog'
  | deeper marks hlt hlog hpeak => exact .deeper marks hlt hlog hpeak

/-! ### Calls -/

/-- A watched call and the same call under the limit: one more call is active in what it does. -/
theorem watched {x y : Eval α} (hxy : Lockstep limit d (active + 1) good t x y) :
    Lockstep limit d active good t (Machine.watched x) y := by
  intro w w' hw hunder
  have h := hxy { w with log := w.log ++ [calling] } w' hw
    ⟨hunder.scope, hunder.deferreds, hunder.nextId, hunder.seed⟩
  unfold Machine.watched
  rcases hx : x { w with log := w.log ++ [calling] } with ⟨o, w₁⟩
  rcases hy : y w' with ⟨o', w₁'⟩
  rw [hx, hy] at h
  cases h with
  | overran hover hover' => exact .overran hover hover'
  | same hnested hlog hpeak hgood hat hunder' hlog' =>
    refine .same hnested.single ?_ ((hnested.peak_single active).trans_le hpeak) hgood hat
      ⟨hunder'.scope, hunder'.deferreds, hunder'.nextId, hunder'.seed⟩ hlog'
    simp [hlog]
  | deeper marks hlt hlog hpeak =>
    refine .deeper (calling :: marks ++ [called]) hlt (by simp [hlog]) ?_
    calc d < peak (active + 1) marks := hpeak
      _ ≤ peak active (calling :: marks) := le_max_right _ _
      _ ≤ peak active (calling :: marks ++ [called]) := peak_le_append _ _ _

/-- A call that the limit `d` refuses, and the run that makes it. -/
theorem refused {x : Eval α} (hadds : x.Adds) (hd : d ≤ active) (hlt : d < limit) :
    Lockstep limit d active good t (Machine.watched x) (Eval.fail (.callDepth d)) := by
  intro w w' _ _
  obtain ⟨marks, hmarks⟩ := hadds { w with log := w.log ++ [calling] }
  refine .deeper (calling :: marks ++ [called]) hlt ?_ ?_
  · simp [← hmarks]
  · calc d ≤ active := hd
      _ < peak active (calling :: marks) := lt_peak_calling active marks
      _ ≤ peak active (calling :: marks ++ [called]) := peak_le_append _ _ _

/-- A call that both limits refuse. -/
theorem overran {y : Eval α} {e : EvalError} (he : Stop.Overran (.error e))
    (hy : d ≤ limit → ∃ e', Stop.Overran (.error e') ∧ y = Eval.fail e') :
    Lockstep limit d active good t (Machine.watched (Eval.fail e)) y := fun w w' _ _ =>
  .overran he fun hle => by
    obtain ⟨e', he', rfl⟩ := hy hle
    exact ⟨.error e', he', rfl⟩

end Lockstep

end Eval

end Formula

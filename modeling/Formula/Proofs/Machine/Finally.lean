import Formula.Evaluation
import Formula.Proofs.Machine.Ready

/-!
# Runs that give a value in the end

A run gives a value at once or, where waiting is allowed, after it has waited some times: each time
its frames go on with the value that was waited for. The frames of a program that was entered come
before those of the code around it, so first the program gives a value, then the code goes on with
it. By induction on the number of times a run waits, an instruction runs on operands that have
become values, whichever of these had to be waited for.
-/

namespace Formula

/-- A run that gives a value, after it has waited a number of times. -/
inductive Progress.Gives (hosts : Hosts) (lang : Language Value) (waits : Prop) :
    Nat → Progress → World → Value → World → Prop
  | done (v : Value) (w : World) : Gives hosts lang waits 0 (.done v) w v w
  | waiting {k n fuel on : Nat} {frames : List Frame} {p : Progress} {u v : Value}
      {w w₁ w₂ w₃ : World} : waits → Machine.await hosts n fuel on w = (.ok u, w₁) →
      Machine.resume (Machine.engine hosts n) lang 0 frames u w₁ = (.ok p, w₂) →
      Gives hosts lang waits k p w₂ v w₃ →
      Gives hosts lang waits (k + 1) (.waiting frames on) w v w₃

namespace Machine

open Eval

section

variable (hosts : Hosts) (lang : Language Value) (waits : Prop)

/-- An evaluation that starts a run which gives a value in the end. -/
def Finally (k : Nat) (x : Eval Progress) (w : World) (v : Value) (w₁ : World) : Prop :=
  ∃ p w', x w = (.ok p, w') ∧ p.Gives hosts lang waits k w' v w₁

/-- A program that gives a value in the end, when it is entered. -/
def Answers (code : Program Value) (w : World) (v : Value) (w₁ : World) : Prop :=
  ∃ k n depth, Finally hosts lang waits k ((engine hosts n).enter lang depth code) w v w₁

/-- Code that, run on a stack, gives a value in the end. -/
def Yields (code : Program Value) (stack : List Operand) (w : World) : Prop :=
  ∃ k n depth v w₁, Finally hosts lang waits k (run (engine hosts n) lang depth code stack) w v w₁

/-- An operand that is no value yet is brought to one: a program is entered, a deferred value is
waited for. -/
inductive Brought : Operand → World → Value → World → Prop
  | entered {code : Program Value} {u : Value} {w w₁ : World} :
      Answers hosts lang waits code w u w₁ → Brought (.thunk code) w u w₁
  | awaited {k id : Nat} {u : Value} {w w₁ : World} :
      Progress.Gives hosts lang waits k (.waiting [] id) w u w₁ →
      Brought (.value (.deferred id)) w u w₁

/-- Operands at some depths are brought to values, one after the other. -/
inductive Readied (ds : List Nat) : List Operand → World → List Operand → World → Prop
  | refl (stack : List Operand) (w : World) : Readied ds stack w stack w
  | bring {d : Nat} {o : Operand} {u : Value} {stack ready : List Operand} {w w₁ w₂ : World} :
      d ∈ ds → stack[d]? = some o → Brought hosts lang waits o w u w₁ →
      Readied ds (stack.set d (.value u)) w₁ ready w₂ → Readied ds stack w ready w₂

/-- What a plan leads to in the end. -/
inductive Performed : Plan → World → List Operand → World → Prop
  | next (stack : List Operand) (w : World) : Performed (.next stack) w stack w
  | value {use : Use} {u v : Value} {w w₁ : World} (stack : List Operand) :
      use.apply u w = (.ok v, w₁) →
      Performed (.resolve (.value u) use stack) w (.value v :: stack) w₁
  | thunk {code : Program Value} {use : Use} {u v : Value} {w w₁ w₂ : World}
      (stack : List Operand) : Answers hosts lang waits code w u w₁ →
      use.apply u w₁ = (.ok v, w₂) →
      Performed (.resolve (.thunk code) use stack) w (.value v :: stack) w₂
  | call {n depth : Nat} {f : Function Value} {args : List Value} {v : Value} {w w₁ : World}
      (stack : List Operand) : (engine hosts n).call depth f args w = (.ok v, w₁) →
      Performed (.call f args stack) w (.value v :: stack) w₁
  | define {name : String} {params : List String} {body : Program Value} {v : Value}
      {w w₁ : World} (stack : List Operand) : Machine.define lang name params body w = (.ok v, w₁) →
      Performed (.define name params body stack) w (.value v :: stack) w₁

/-- What bringing operands to values leads to. -/
inductive Forces (ds : List Nat) (stack : List Operand) (w : World) : Forced → World → Prop
  | ready {ready : List Operand} {w₁ : World} : Readied hosts lang waits ds stack w ready w₁ →
      (∀ d ∈ ds, ∃ v, ready[d]? = some (.value v)) → Forces ds stack w (.ready ready) w₁
  | suspended {d on : Nat} {frames : List Frame} {stack' : List Operand} {o : Operand}
      {w' w₁ : World} : d ∈ ds → Readied hosts lang waits ds stack w stack' w' →
      stack'[d]? = some o →
      (∀ j u w₂, Progress.Gives hosts lang waits j (.waiting frames on) w₁ u w₂ →
        Brought hosts lang waits o w' u w₂) →
      Forces ds stack w (.suspended d frames on stack') w₁

/-- A stack after an instruction: a deferred value on top of it is waited for. -/
inductive Clears : List Operand → World → List Operand → World → Prop
  | still {stack : List Operand} (w : World) : Cleared stack → Clears stack w stack w
  | top {k id : Nat} {u : Value} {w w₁ : World} (stack : List Operand) : u.isDeferred = false →
      Progress.Gives hosts lang waits k (.waiting [] id) w u w₁ →
      Clears (.value (.deferred id) :: stack) w (.value u :: stack) w₁

end

/-! ### Waiting -/

variable {hosts : Hosts} {lang : Language Value} {waits : Prop} {k n depth on : Nat}
  {frames more : List Frame} {stack : List Operand} {u v : Value} {w w₁ w₂ : World}

/-- The value that a run gives is not deferred. -/
theorem gives_ready {p : Progress} (h : p.Gives hosts lang waits k w v w₁) (hp : p.Ready) :
    v.isDeferred = false := by
  induction h with
  | done v w => exact hp
  | @waiting k n fuel on frames p u v w w₁ w₂ w₃ _ hawait hresume _ ih =>
    have hu := (waiting_ready hosts n fuel).1 on w u w₁ hawait
    have hgoes : Eval.Gives Progress.Ready (resume (engine hosts n) lang 0 frames u) :=
      resume_ready (engine_ready hosts n) hp hu
    have hready := (hgoes w₁ trivial).2
    rw [hresume] at hready
    exact ih hready

theorem gives_waits (h : Progress.Gives hosts lang waits k (.waiting frames on) w v w₁) :
    waits := by
  cases h with
  | waiting hwaits => exact hwaits

/-- A run that waits goes on with its first frames, until these give a value, and then with the
others. -/
theorem gives_append
    (h : Progress.Gives hosts lang waits k (.waiting (frames ++ more) on) w v w₁) :
    ∃ j l n u w', l < k ∧ Progress.Gives hosts lang waits j (.waiting frames on) w u w' ∧
      Finally hosts lang waits l (resume (engine hosts n) lang 0 more u) w' v w₁ := by
  generalize hp : Progress.waiting (frames ++ more) on = p at h
  induction h generalizing frames on with
  | done => cases hp
  | @waiting k n fuel on frames' p u v w w₁ w₂ w₃ hwaits hawait hresume hgives ih =>
    cases hp
    rw [resume_append] at hresume
    obtain ⟨q, w', hfirst, hafter⟩ := bind_eq_ok hresume
    cases q with
    | done x =>
      exact ⟨1, k, n, x, w', Nat.lt_succ_self k, .waiting hwaits hawait hfirst (.done x w'), p, w₂,
        hafter, hgives⟩
    | waiting fs on =>
      cases hafter
      obtain ⟨j, l, m, x, w'', hl, hj, hrest⟩ := ih rfl
      exact ⟨j + 1, l, m, x, w'', Nat.lt_succ_of_lt hl, .waiting hwaits hawait hfirst hj, hrest⟩

/-! ### Instructions -/

variable {rest : Program Value}

theorem yields_pushed (h : Finally hosts lang waits k
    (resume (engine hosts n) lang 0 [.push stack rest] u) w v w₁) :
    Yields hosts lang waits rest (.value u :: stack) w := by
  rw [resume_single] at h
  exact ⟨k, n, 0, v, w₁, h⟩

/-- After an instruction a deferred value on top is waited for. -/
theorem finally_afterNext (h : Finally hosts lang waits k
    (afterStep (engine hosts n) lang depth rest (.next stack)) w v w₁) :
    ∃ stack' w', Cleared stack' ∧ Clears hosts lang waits stack w stack' w' ∧
      Yields hosts lang waits rest stack' w' := by
  by_cases hstack : ∃ id low, stack = .value (.deferred id) :: low
  · obtain ⟨id, low, rfl⟩ := hstack
    obtain ⟨p, w', hp, hgives⟩ := h
    cases hp
    have hwaiting : Progress.Gives hosts lang waits k (.waiting ([] ++ [.push low rest]) id)
        w v w₁ := hgives
    obtain ⟨j, l, m, u, w', -, hj, hrest⟩ := gives_append hwaiting
    have hu := gives_ready hj (List.forall_mem_nil _)
    exact ⟨.value u :: low, w', cleared_value hu low, .top low hu hj, yields_pushed hrest⟩
  · have hcleared : Cleared stack := fun id low hs => hstack ⟨id, low, hs⟩
    have hrun : afterStep (engine hosts n) lang depth rest (.next stack) =
        run (engine hosts n) lang depth rest stack := by
      unfold afterStep
      split
      · next heq => cases heq
      · next heq => cases heq; exact (hcleared _ _ rfl).elim
      · next heq => cases heq; rfl
    rw [hrun] at h
    exact ⟨stack, w, hcleared, .still w hcleared, k, n, depth, v, w₁, h⟩

theorem use_ready {use : Use} (hu : u.isDeferred = false) (h : use.apply u w = (.ok v, w₁)) :
    v.isDeferred = false := by
  cases use with
  | keep =>
    cases h
    exact hu
  | truth =>
    cases h
    rfl
  | assign path =>
    obtain ⟨_, w', -, h⟩ := bind_eq_ok h
    cases h
    exact hu

/-- A program is entered and its value used, at once or after waiting, before the code goes on. -/
theorem finally_used {code : Program Value} {use : Use} (h : Finally hosts lang waits k
    ((engine hosts n).enter lang depth code >>= afterUse (engine hosts n) lang depth use stack rest)
    w v w₁) :
    ∃ u w' x w'', Answers hosts lang waits code w u w' ∧ use.apply u w' = (.ok x, w'') ∧
      ∃ stack' w₂, Cleared stack' ∧ Clears hosts lang waits (.value x :: stack) w'' stack' w₂ ∧
        Yields hosts lang waits rest stack' w₂ := by
  obtain ⟨p, w₂, hp, hgives⟩ := h
  obtain ⟨q, w', hq, hafter⟩ := bind_eq_ok hp
  cases q with
  | done u =>
    obtain ⟨x, w'', huse, hrest⟩ := bind_eq_ok hafter
    exact ⟨u, w', x, w'', ⟨0, n, depth, _, w', hq, .done u w'⟩, huse,
      finally_afterNext ⟨p, w₂, hrest, hgives⟩⟩
  | waiting frames on =>
    cases hafter
    have hframes := (engine_ready hosts n lang depth code w trivial).2
    rw [hq] at hframes
    rw [List.append_assoc] at hgives
    obtain ⟨j, l, m, u, w₃, -, hj, r, w₄, hresume, hr⟩ := gives_append hgives
    rw [resume_use] at hresume
    obtain ⟨x, w₅, huse, hpush⟩ := bind_eq_ok hresume
    have hx := cleared_value (use_ready (gives_ready hj hframes) huse) stack
    exact ⟨u, w₃, x, w₅, ⟨j, n, depth, _, w₂, hq, hj⟩, huse, _, w₅, hx, .still w₅ hx,
      yields_pushed ⟨r, w₄, hpush, hr⟩⟩

/-- A plan is carried out, at once or after waiting, before the code goes on. -/
theorem finally_performed {p : Plan} (h : Finally hosts lang waits k
    (perform (engine hosts n) lang depth p >>= afterStep (engine hosts n) lang depth rest) w v w₁) :
    ∃ next w' stack' w₂, Performed hosts lang waits p w next w' ∧ Cleared stack' ∧
      Clears hosts lang waits next w' stack' w₂ ∧ Yields hosts lang waits rest stack' w₂ := by
  cases p with
  | next stack =>
    obtain ⟨stack', w₂, hrest⟩ := finally_afterNext h
    exact ⟨stack, w, stack', w₂, .next stack w, hrest⟩
  | resolve o use stack =>
    cases o with
    | value u =>
      obtain ⟨q, w₂, hq, hgives⟩ := h
      obtain ⟨s, w', hs, hafter⟩ := bind_eq_ok hq
      obtain ⟨_, _, hvalue, hs⟩ := bind_eq_ok hs
      cases hvalue
      obtain ⟨x, w'', huse, hpure⟩ := bind_eq_ok hs
      cases hpure
      obtain ⟨stack', w₃, hrest⟩ := finally_afterNext ⟨q, w₂, hafter, hgives⟩
      exact ⟨_, w', stack', w₃, .value stack huse, hrest⟩
    | thunk code =>
      rw [perform_thunk] at h
      obtain ⟨u, w', x, w'', hcode, huse, stack', w₂, hrest⟩ := finally_used h
      exact ⟨_, w'', stack', w₂, .thunk stack hcode huse, hrest⟩
  | call f args stack =>
    obtain ⟨q, w₂, hq, hgives⟩ := h
    obtain ⟨s, w', hs, hafter⟩ := bind_eq_ok hq
    obtain ⟨x, w'', hcall, hpure⟩ := bind_eq_ok hs
    cases hpure
    obtain ⟨stack', w₃, hrest⟩ := finally_afterNext ⟨q, w₂, hafter, hgives⟩
    exact ⟨_, w', stack', w₃, .call stack hcall, hrest⟩
  | define name params body stack =>
    obtain ⟨q, w₂, hq, hgives⟩ := h
    obtain ⟨s, w', hs, hafter⟩ := bind_eq_ok hq
    obtain ⟨x, w'', hdefine, hpure⟩ := bind_eq_ok hs
    cases hpure
    obtain ⟨stack', w₃, hrest⟩ := finally_afterNext ⟨q, w₂, hafter, hgives⟩
    exact ⟨_, w', stack', w₃, .define stack hdefine, hrest⟩

/-! ### Needed operands -/

namespace Readied

variable {ds cs : List Nat} {ready last : List Operand}

theorem mono (hds : ∀ d ∈ ds, d ∈ cs) (h : Readied hosts lang waits ds stack w ready w₁) :
    Readied hosts lang waits cs stack w ready w₁ := by
  induction h with
  | refl stack w => exact .refl stack w
  | bring hd ho hbrought _ ih => exact .bring (hds _ hd) ho hbrought ih

theorem trans (h : Readied hosts lang waits ds stack w ready w₁)
    (h' : Readied hosts lang waits ds ready w₁ last w₂) :
    Readied hosts lang waits ds stack w last w₂ := by
  induction h with
  | refl => exact h'
  | bring hd ho hbrought _ ih => exact .bring hd ho hbrought (ih h')

/-- What is a value stays one. -/
theorem value (h : Readied hosts lang waits ds stack w ready w₁) {d : Nat}
    (hd : ∃ v, stack[d]? = some (.value v)) : ∃ v, ready[d]? = some (.value v) := by
  induction h with
  | refl => exact hd
  | @bring c o u stack _ _ _ _ hc ho _ _ ih =>
    refine ih ?_
    obtain ⟨v, hv⟩ := hd
    by_cases hcd : c = d
    · subst hcd
      exact ⟨u, List.getElem?_set_self (List.getElem?_eq_some_iff.mp ho).1⟩
    · exact ⟨v, by rw [List.getElem?_set_ne hcd, hv]⟩

end Readied

/-- One operand is a value, then the others are brought to values. -/
theorem Forces.after {ds : List Nat} {d : Nat} {next : List Operand} {r : Forced}
    (h : Forces hosts lang waits ds next w₁ r w₂)
    (hnext : Readied hosts lang waits (d :: ds) stack w next w₁)
    (hd : ∃ v, next[d]? = some (.value v)) : Forces hosts lang waits (d :: ds) stack w r w₂ := by
  have hds : ∀ c ∈ ds, c ∈ d :: ds := fun c hc => List.mem_cons_of_mem d hc
  cases h with
  | ready hready hvalues =>
    exact .ready (hnext.trans (hready.mono hds))
      (List.forall_mem_cons.mpr ⟨hready.value hd, hvalues⟩)
  | suspended hc hready ho hbrought =>
    exact .suspended (hds _ hc) (hnext.trans (hready.mono hds)) ho hbrought

/-- Bringing operands to values ends, or is suspended while one of them is brought to a value. -/
theorem force_forces {ds : List Nat} {r : Forced}
    (h : force (engine hosts n) lang depth ds stack w = (.ok r, w₁)) :
    Forces hosts lang waits ds stack w r w₁ := by
  induction ds generalizing stack w with
  | nil =>
    cases h
    exact .ready (.refl stack w₁) (List.forall_mem_nil _)
  | cons d ds ih =>
    have hd : d ∈ d :: ds := List.mem_cons_self
    cases ho : stack[d]? with
    | none =>
      rw [force, ho] at h
      cases h
    | some o =>
      cases o with
      | value v =>
        cases v with
        | deferred id =>
          rw [force, ho] at h
          cases h
          exact .suspended hd (.refl stack w₁) ho fun j u w₂ hgives => .awaited hgives
        | _ =>
          rw [force, ho] at h
          exact (ih h).after (.refl stack w) ⟨_, ho⟩
      | thunk code =>
        rw [force_thunk ho] at h
        obtain ⟨p, w', henter, hafter⟩ := bind_eq_ok h
        cases p with
        | waiting frames on =>
          cases hafter
          exact .suspended hd (.refl stack w) ho fun j u w₂ hgives =>
            .entered ⟨j, n, depth, _, w₁, henter, hgives⟩
        | done v =>
          have hbrought : Brought hosts lang waits (.thunk code) w v w' :=
            .entered ⟨0, n, depth, _, w', henter, .done v w'⟩
          have hset : (stack.set d (.value v))[d]? = some (.value v) :=
            List.getElem?_set_self (List.getElem?_eq_some_iff.mp ho).1
          exact (ih hafter).after (.bring hd ho hbrought (.refl _ w')) ⟨v, hset⟩

/-! ### Code -/

/-- An instruction runs on operands that have become values, before the code goes on. -/
theorem finally_readied {i : Instruction Value} (h : Finally hosts lang waits k
    (run (engine hosts n) lang depth (i :: rest) stack) w v w₁) :
    ∃ ready w' l m d, Readied hosts lang waits (needed i) stack w ready w' ∧
      (∀ d ∈ needed i, ∃ v, ready[d]? = some (.value v)) ∧ Finally hosts lang waits l
        (step (engine hosts m) lang d i ready >>= afterStep (engine hosts m) lang d rest)
        w' v w₁ := by
  -- on the number of times that the run waits
  induction k using Nat.strongRecOn generalizing n depth stack w with
  | ind k ih =>
    obtain ⟨p, w₂, hp, hgives⟩ := h
    rw [run_cons] at hp
    obtain ⟨r, w', hforce, hafter⟩ := bind_eq_ok hp
    have hforces : Forces hosts lang waits (needed i) stack w r w' := force_forces hforce
    cases hforces with
    | ready hready hvalues =>
      exact ⟨_, w', k, n, depth, hready, hvalues, p, w₂, hafter, hgives⟩
    | @suspended d on frames stack' o w' _ hd hready ho hbrought =>
      cases hafter
      obtain ⟨j, l, m, u, w₃, hl, hj, hresume⟩ := gives_append hgives
      rw [resume_single] at hresume
      obtain ⟨ready, w₄, l', m', d', hready', hrest⟩ := ih l hl hresume
      exact ⟨ready, w₄, l', m', d', hready.trans (.bring hd ho (hbrought j u w₃ hj) hready'), hrest⟩

/-- What an instruction does in a run that gives a value in the end. -/
theorem yields_cons {i : Instruction Value} (h : Yields hosts lang waits (i :: rest) stack w) :
    ∃ ready w₁ p next w₂ stack' w₃, Readied hosts lang waits (needed i) stack w ready w₁ ∧
      (∀ d ∈ needed i, ∃ v, ready[d]? = some (.value v)) ∧ plan lang w₁.scope i ready = .ok p ∧
      Performed hosts lang waits p w₁ next w₂ ∧ Cleared stack' ∧
      Clears hosts lang waits next w₂ stack' w₃ ∧ Yields hosts lang waits rest stack' w₃ := by
  obtain ⟨k, n, depth, v, w', h⟩ := h
  obtain ⟨ready, w₁, l, m, d, hready, hvalues, q, w₂, hq, hgives⟩ := finally_readied h
  obtain ⟨s, w₃, hstep, hafter⟩ := bind_eq_ok hq
  change (Eval.ofExcept (plan lang w₁.scope i ready) >>= perform (engine hosts m) lang d) w₁ = _
    at hstep
  obtain ⟨p, w₁', hplan, hperform⟩ := bind_eq_ok hstep
  cases hp : plan lang w₁.scope i ready with
  | error e =>
    rw [hp] at hplan
    cases hplan
  | ok p' =>
    rw [hp] at hplan
    cases hplan
    have hrest : Finally hosts lang waits l
        (perform (engine hosts m) lang d p >>= afterStep (engine hosts m) lang d rest) w₁ v w' :=
      ⟨q, w₂, (bind_of_ok hperform).trans hafter, hgives⟩
    obtain ⟨next, w₄, stack', w₅, hperformed, hrest⟩ := finally_performed hrest
    exact ⟨ready, w₁, p, next, w₄, stack', w₅, hready, hvalues, hp, hperformed, hrest⟩

/-! ### Whole programs -/

theorem gives_of_drive {levels fuel : Nat} (hwaits : waits)
    (h : drive hosts levels fuel ⟨lang, frames, on⟩ w = (.ok v, w₁)) :
    ∃ k u w', Progress.Gives hosts lang waits k (.waiting frames on) w u w' := by
  induction fuel generalizing frames on w with
  | zero => cases h
  | succ fuel ih =>
    obtain ⟨u, w', hawait, h⟩ := bind_eq_ok h
    obtain ⟨p, w'', hresume, h⟩ := bind_eq_ok h
    cases p with
    | done x => exact ⟨1, x, w'', .waiting hwaits hawait hresume (.done x w'')⟩
    | waiting frames on =>
      obtain ⟨k, x, w₂, hgives⟩ := ih h
      exact ⟨k + 1, x, w₂, .waiting hwaits hawait hresume hgives⟩

/-- A program that is entered and waited for gives a value in the end. -/
theorem answers_of_settle {code : Program Value} {levels : Nat} (hwaits : waits)
    (h : ((engine hosts n).enter lang depth code >>= Progress.settle hosts levels lang) w =
      (.ok v, w₁)) : ∃ u w', Answers hosts lang waits code w u w' := by
  obtain ⟨p, w₂, henter, hsettle⟩ := bind_eq_ok h
  cases p with
  | done u => exact ⟨u, w₂, 0, n, depth, _, w₂, henter, .done u w₂⟩
  | waiting frames on =>
    obtain ⟨k, u, w', hgives⟩ := gives_of_drive hwaits hsettle
    exact ⟨u, w', k, n, depth, _, w₂, henter, hgives⟩

end Machine

end Formula

import Formula.Proofs.Scope.Mentioned
import Formula.Proofs.Simplify.Reads

/-!
# The names of simplified expressions

Simplifying drops the reads of variables that are known, wherever they stand, and leaves all other
places where a name is mentioned as they are, in order: an operator is replaced by its result only
when all reads in its operands are such. So the names of a simplified expression are those of the
expression without these reads.
-/

namespace Formula

open Eval Machine

/-! ### Known reads -/

/-- Whether a mention is the read of a variable that is known: it has a plain value, and its name is
neither reserved nor that of a function or of an operator that is enabled. -/
def Mention.isKnown (lang : Language Value) (b : Bindings) : Mention → Bool
  | .read name =>
    !isReserved name && (lang.function? name).isNone
      && !((lang.unaryOp? name).isSome && lang.isOperatorEnabled name)
      && (Record.get? b name).any fun v => !v.isFunction && !v.isDeferred
  | .assigned _ _ | .bound _ => false

/-- The mentions that are left when the reads of known variables are dropped. -/
def Mention.unknown (lang : Language Value) (b : Bindings) (ms : List Mention) : List Mention :=
  ms.filter fun m => !m.isKnown lang b

variable {lang : Language Value} {b : Bindings}

theorem Mention.isKnown_read (name : String) :
    (Mention.read name).isKnown lang b = (Expr.knownVariable? lang b name).isSome := by
  simp only [isKnown, Expr.knownVariable?]
  cases Record.get? b name with
  | none =>
    cases isReserved name <;> cases lang.function? name <;> cases lang.unaryOp? name <;>
      cases lang.isOperatorEnabled name <;> rfl
  | some v =>
    cases isReserved name <;> cases lang.function? name <;> cases lang.unaryOp? name <;>
      cases lang.isOperatorEnabled name <;> cases v <;> rfl

section

variable (lang b)

@[simp] theorem Mention.unknown_nil : unknown lang b [] = [] := rfl

@[simp] theorem Mention.unknown_assigned (root : String) (members : List String)
    (ms : List Mention) :
    unknown lang b (.assigned root members :: ms) = .assigned root members :: unknown lang b ms :=
  rfl

@[simp] theorem Mention.unknown_bound (name : String) (ms : List Mention) :
    unknown lang b (.bound name :: ms) = .bound name :: unknown lang b ms := rfl

@[simp] theorem Mention.unknown_append (ms ms' : List Mention) :
    unknown lang b (ms ++ ms') = unknown lang b ms ++ unknown lang b ms' := List.filter_append ..

end

/-- Where nothing is bound, nothing is known. -/
theorem Mention.unknown_empty (ms : List Mention) : unknown lang [] ms = ms := by
  refine List.filter_eq_self.mpr fun m _ => ?_
  cases m <;> simp [isKnown, Record.get?]

namespace Expr

/-! ### Folding -/

/-- What an expression has been folded to mentions what it mentions, but for known reads. -/
abbrev LeavesOut (lang : Language Value) (b : Bindings) (ms : List Mention) (e : Expr) : Prop :=
  e.mentions = Mention.unknown lang b ms

@[simp] theorem expr_known (v : Value) : (Folded.known v).expr = .literal v := rfl

@[simp] theorem expr_code (e : Expr) : (Folded.code e).expr = e := rfl

theorem mentions_case (tested : Option Expr) (branches : List (Expr × Expr))
    (other : Option Expr) :
    mentions (.case tested branches other) =
      mentionsOption tested ++ (mentionsBranches branches ++ mentionsOption other) := by
  cases tested <;> rfl

theorem mentionsItems_known {fs : List Folded} {values : List Value}
    (h : fs.mapM Folded.value? = some values) : mentionsItems (fs.map Folded.expr) = [] := by
  induction fs generalizing values with
  | nil => rfl
  | cons f fs ih =>
    cases f with
    | code e => cases h
    | known v =>
      obtain ⟨vs, hvs, -⟩ : ∃ vs, fs.mapM Folded.value? = some vs ∧ v :: vs = values := by
        simpa [List.mapM_cons, Folded.value?, Option.bind_eq_some_iff] using h
      simpa [mentionsItems, mentions] using ih hvs

section

variable {call : Function Value → List Value → Eval Value}

/-- An operator on literals mentions nothing, whether it is replaced by its result or stays. -/
theorem foldOperator_mentions (hcall : ∀ f args, Scoped (call f args)) {op : String}
    {entry : Option Native} {args : List Value} {restored : Expr} {ms : List Mention}
    (hms : Mention.unknown lang b ms = []) (hrestored : restored.mentions = []) :
    Finds b (fun f => LeavesOut lang b ms f.expr) (foldOperator call op entry args restored) := by
  unfold foldOperator
  refine (Scoped.ofExcept _).finds.bind fun f _ => (hcall f args).finds.bind fun v _ => ?_
  split
  · exact .pure (hrestored.trans hms.symm)
  · exact .pure (hrestored.trans hms.symm)
  · exact .pure hms.symm

mutual

theorem fold_mentions (hcall : ∀ f args, Scoped (call f args)) : (e : Expr) →
    Finds b (fun f => LeavesOut lang b e.mentions f.expr) (fold call lang e)
  | .literal v => by
    cases v <;> exact .pure rfl
  | .undefined => .pure rfl
  | .variable name => by
    unfold fold
    refine Finds.scope.bind fun scope hscope => ?_
    subst hscope
    have hread := @Mention.isKnown_read lang scope name
    split
    · next v hv =>
      refine .pure ?_
      simp [LeavesOut, mentions, Mention.unknown, hread, hv]
    · next hv =>
      refine .pure ?_
      simp [LeavesOut, mentions, Mention.unknown, hread, hv]
  | .unary op e => by
    unfold fold
    refine (fold_mentions hcall e).bind fun f hf => ?_
    cases f with
    | known v => exact foldOperator_mentions hcall hf.symm rfl
    | code e' => exact .pure hf
  | .binary op l r => by
    unfold fold
    refine (fold_mentions hcall l).bind fun l' hl => ?_
    refine (fold_mentions hcall r).bind fun r' hr => ?_
    have hboth : LeavesOut lang b (mentions (.binary op l r)) (.binary op l'.expr r'.expr) := by
      simp [LeavesOut, mentions, hl, hr]
    split
    · exact foldOperator_mentions hcall (hboth.symm.trans rfl) rfl
    · exact .pure hboth
  | .connective c l r => by
    unfold fold
    refine (fold_mentions hcall l).bind fun l' hl => ?_
    refine (fold_mentions hcall r).bind fun r' hr => .pure ?_
    simp [LeavesOut, mentions, hl, hr]
  | .conditional t y n => by
    unfold fold
    refine (fold_mentions hcall t).bind fun t' ht => ?_
    refine (fold_mentions hcall y).bind fun y' hy => ?_
    refine (fold_mentions hcall n).bind fun n' hn => .pure ?_
    simp [LeavesOut, mentions, ht, hy, hn]
  | .assign root members v => by
    unfold fold
    refine (fold_mentions hcall v).bind fun v' hv => .pure ?_
    simp [LeavesOut, mentions, hv]
  | .define name params body => by
    unfold fold
    refine (fold_mentions hcall body).bind fun body' hbody => .pure ?_
    have hparams : Mention.unknown lang b (params.map .bound) = params.map .bound :=
      List.filter_eq_self.mpr (by simp [Mention.isKnown])
    simp [LeavesOut, mentions, hbody, hparams]
  | .call f args => by
    unfold fold
    refine (fold_mentions hcall f).bind fun f' hf => ?_
    refine (foldItems_mentions hcall args).bind fun args' hargs => .pure ?_
    simp [LeavesOut, mentions, hf, hargs]
  | .member e name => by
    unfold fold
    refine (fold_mentions hcall e).bind fun f hf => ?_
    cases f with
    | code e' => exact .pure hf
    | known v =>
      dsimp only
      split
      · exact .pure hf
      · exact .pure hf
  | .array items => by
    unfold fold
    refine (foldItems_mentions hcall items).bind fun fs hfs => ?_
    split
    · next values hvalues => exact .pure ((mentionsItems_known hvalues).symm.trans hfs)
    · exact .pure hfs
  | .object fields => by
    unfold fold
    exact (foldFields_mentions hcall fields).bind fun fields' hfields => .pure hfields
  | .case tested branches other => by
    unfold fold
    refine (foldOption_mentions hcall tested).bind fun tested' htested => ?_
    refine (foldBranches_mentions hcall branches).bind fun branches' hbranches => ?_
    refine (foldOption_mentions hcall other).bind fun other' hother => .pure ?_
    simp [LeavesOut, mentions_case, htested, hbranches, hother]
  | .sequence l r => by
    unfold fold
    refine (fold_mentions hcall l).bind fun l' hl => ?_
    refine (fold_mentions hcall r).bind fun r' hr => .pure ?_
    simp [LeavesOut, mentions, hl, hr]
  | .closed e => by
    unfold fold
    exact (fold_mentions hcall e).bind fun f hf => .pure hf

theorem foldItems_mentions (hcall : ∀ f args, Scoped (call f args)) : (es : List Expr) →
    Finds b (fun fs => mentionsItems (fs.map Folded.expr) =
      Mention.unknown lang b (mentionsItems es)) (foldItems call lang es)
  | [] => .pure rfl
  | e :: rest => by
    unfold foldItems
    refine (fold_mentions hcall e).bind fun f hf => ?_
    refine (foldItems_mentions hcall rest).bind fun fs hfs => .pure ?_
    simp [mentionsItems, hf, hfs]

theorem foldFields_mentions (hcall : ∀ f args, Scoped (call f args)) :
    (fields : List (String × Expr)) →
    Finds b (fun fields' => mentionsFields fields' =
      Mention.unknown lang b (mentionsFields fields)) (foldFields call lang fields)
  | [] => .pure rfl
  | (key, e) :: rest => by
    unfold foldFields
    refine (fold_mentions hcall e).bind fun f hf => ?_
    refine (foldFields_mentions hcall rest).bind fun fields' hfields => .pure ?_
    simp [mentionsFields, hf, hfields]

theorem foldBranches_mentions (hcall : ∀ f args, Scoped (call f args)) :
    (branches : List (Expr × Expr)) →
    Finds b (fun branches' => mentionsBranches branches' =
      Mention.unknown lang b (mentionsBranches branches)) (foldBranches call lang branches)
  | [] => .pure rfl
  | (c, v) :: rest => by
    unfold foldBranches
    refine (fold_mentions hcall c).bind fun c' hc => ?_
    refine (fold_mentions hcall v).bind fun v' hv => ?_
    refine (foldBranches_mentions hcall rest).bind fun rest' hrest => .pure ?_
    simp [mentionsBranches, hc, hv, hrest]

theorem foldOption_mentions (hcall : ∀ f args, Scoped (call f args)) : (other : Option Expr) →
    Finds b (fun other' => mentionsOption other' =
      Mention.unknown lang b (mentionsOption other)) (foldOption call lang other)
  | none => .pure rfl
  | some e => by
    unfold foldOption
    exact (fold_mentions hcall e).bind fun f hf => .pure hf

end

end

end Expr

/-! ### Names -/

/-- The names of a simplified expression are those that the expression mentions from left to right
when the reads of known variables are left out, each where it appears first. Where nothing is
bound, they are the names of the expression. -/
theorem simplify_symbols {hosts : Hosts} {fuel : Nat} {e q : Expr} {w w₁ : World}
    (hq : e.simplify hosts fuel lang w = (.ok q, w₁)) :
    q.symbols false =
        ((Mention.unknown lang w.scope e.mentions).map Mention.name).eraseDups ∧
      (w.scope = [] → q.symbols false = e.symbols false) := by
  obtain ⟨f, w', hf, hexpr⟩ := bind_eq_ok hq
  have hmentions : f.expr.mentions = Mention.unknown lang w.scope e.mentions :=
    (Expr.fold_mentions (engine_restores hosts fuel 0) e w f w' rfl hf).2
  cases hexpr
  rw [Expr.symbols_mentioned, hmentions]
  refine ⟨rfl, fun hscope => ?_⟩
  rw [hscope, Mention.unknown_empty, Expr.symbols_mentioned]

/-- A program that reads a known variable in an operator that is replaced, in one that stays, and in
a function with a parameter of its name. -/
def mixedReadsSource : String := "b || (a == a); a = a; f(a) = c || a"

theorem mixedReads_symbols : ∃ e q w₁,
    parseExpr (.ofOptions 0 {}) mixedReadsSource = .ok e ∧
    e.simplify (fun _ _ => ⟨[], .value .null⟩) 9 (.ofOptions 0 {})
      (World.start [("a", .string "x")] 100) = (.ok q, w₁) ∧
    e.symbols false = ["b", "a", "f", "c"] ∧
    q.symbols false = ((Mention.unknown (.ofOptions 0 {}) [("a", .string "x")] e.mentions).map
      Mention.name).eraseDups ∧
    (Mention.unknown (.ofOptions 0 {}) [("a", .string "x")] e.mentions).map Mention.name =
      ["b", "a", "f", "a", "c"] := by
  have hshown : (parseExpr (.ofOptions 0 {}) mixedReadsSource).toOption.map (fun e =>
      ((e.simplify (fun _ _ => ⟨[], .value .null⟩) 9 (.ofOptions 0 {})
          (World.start [("a", .string "x")] 100)).1.isOk, e.symbols false,
        (Mention.unknown (.ofOptions 0 {}) [("a", .string "x")] e.mentions).map Mention.name)) =
      some (true, ["b", "a", "f", "c"], ["b", "a", "f", "a", "c"]) := by
    decide +kernel
  obtain ⟨e, he, hall⟩ := exists_ok_of_map hshown
  obtain ⟨hok, hrest⟩ := Prod.mk.inj hall
  obtain ⟨hsymbols, hunknown⟩ := Prod.mk.inj hrest
  rcases hq : e.simplify (fun _ _ => ⟨[], .value .null⟩) 9 (.ofOptions 0 {})
    (World.start [("a", .string "x")] 100) with ⟨_ | q, w₁⟩
  · rw [hq] at hok
    cases hok
  · exact ⟨e, q, w₁, he, hq, hsymbols, (simplify_symbols hq).1, hunknown⟩

end Formula

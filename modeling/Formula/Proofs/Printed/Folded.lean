import Formula.Proofs.Printed.Literals
import Formula.Proofs.Printed.RoundTrip
import Formula.Proofs.Simplify.Functions

/-!
# Texts of simplified expressions

A simplified expression holds literals that no source has: negative numbers, arrays and objects. Its
text is that of another expression, which builds these values of literals that a source can have. The
two do the same, as long as no literal is null, a function, deferred, a number that is not finite or a
zero with a sign.
-/

open Formula.Lexer Formula.Parser

namespace Formula

/-! ### Literals in their places -/

theorem Value.readAs_number {lang : Language Value} (hlang : lang.Writes) {x : Float}
    (hx : (Number.decode? x).isSome) (hexact : (Value.number x).isExact = true) :
    (Expr.literal (.number x)).ReadAs lang (numberExpr x) := by
  rcases numberExpr_cases hx with
    ⟨hexpr, -, -, hzero⟩ | ⟨-, -, ⟨hexpr, hunsigned⟩ | ⟨hexpr, hneg, hunsigned, htext, -⟩⟩
  · rw [hexpr, hzero hexact]
    exact Expr.reread_number ⟨0, -1074, by decide⟩
  · rw [hexpr]
    exact Expr.reread_number hunsigned
  -- a minus sign and the number without it, in parentheses
  · rw [hexpr]
    have hshape : (Expr.literal (.number x)).text =
        enclosed ('-' :: (Number.text (-x)).toList) := by
      simp [Expr.text, Expr.render, Expr.literalText, hneg, htext, enclosed]
    have hsign : Yields lang endsNumber ('-' :: (Number.text (-x)).toList)
        [.op "-", .number (-x)] := fun rest ls hrest hlex =>
      (begins_sign (by decide) (hlang.enabled "-" (by decide))).lexes
        (Expr.yields_number hunsigned rest ls hrest hlex)
    exact Expr.readAs_enclosed (atomic_sign (.inl rfl) (hlang.sign "-" (by decide))
      (atomic_number _).spelled) rfl hshape hsign (by decide)

theorem Value.readAs_expr {lang : Language Value} (hlang : lang.Writes) {v : Value}
    (h : v.isWritable = true) (hexact : v.isExact = true) :
    (Expr.literal v).ReadAs lang v.expr := by
  cases v with
  | undefined => exact Expr.reread_undefined hlang
  | bool b => exact Expr.reread_bool hlang b
  | string s => exact Expr.reread_string s
  | number x => exact readAs_number hlang h hexact
  | array items =>
    obtain ⟨_, ⟨tail, rfl, hatomic⟩, htext⟩ :=
      Expr.legible_array hlang (legible_itemLiterals hlang items h)
    rw [← literal_array] at htext
    exact ⟨_, .ofAtomic hatomic fun h => (by cases h), htext⟩
  | object fields =>
    obtain ⟨_, ⟨tail, rfl, hatomic⟩, htext⟩ :=
      Expr.legible_object (legible_fieldLiterals hlang fields h)
    rw [← literal_object] at htext
    exact ⟨_, .ofAtomic hatomic fun h => (by cases h), htext⟩
  | null | function _ | deferred _ => cases h

open Machine Waiting

namespace Expr

section

variable {hosts : Hosts} {lang : Language Value} {f : Value → Expr}

/-- What an expression needs, besides its parts, to do the same with other expressions for its
literals: they stand for them, and it defines nothing. -/
def Replaceable (hosts : Hosts) (lang : Language Value) (f : Value → Expr) : Expr → Prop
  | .literal v => Replaces hosts lang [] [.literal v] (f v).compile
  | .binary op _ _ => op ≠ "="
  | .define _ _ _ => False
  | _ => True

theorem length_mapItemLiterals (es : List Expr) : (mapItemLiterals f es).length = es.length := by
  induction es with
  | nil => rfl
  | cons e rest ih => exact congrArg (· + 1) ih

-- no variable needs to be known for this: the literals push their values in every scope
mutual

theorem mapLiterals_replaces : (e : Expr) → e.Every (Replaceable hosts lang f) →
    Replaces hosts lang [] e.compile (e.mapLiterals f).compile
  | .literal _, h => h
  | .undefined, _ | .variable _, _ => .same rfl rfl
  | .unary _ e, h => (mapLiterals_replaces e h.2).append (.same rfl rfl)
  | .member e _, h => (mapLiterals_replaces e h.2).append (.same rfl rfl)
  | .closed e, h => (mapLiterals_replaces e h.2).group
  | .binary _ l r, h =>
    (mapLiterals_replaces l h.2.1).append ((mapLiterals_replaces r h.2.2).append
      (.same rfl (by simp [Instruction.rebinds, show _ ≠ "=" from h.1])))
  | .connective c l r, h =>
    (mapLiterals_replaces l h.2.1).append ((mapLiterals_replaces r h.2.2).group.append
      (.same rfl (by cases c <;> rfl)))
  | .conditional t y n, h =>
    (mapLiterals_replaces t h.2.1).append ((mapLiterals_replaces y h.2.2.1).group.append
      ((mapLiterals_replaces n h.2.2.2).group.append (.same rfl rfl)))
  | .assign _ _ v, h => fun _ _ hrest => .assign rfl (mapLiterals_replaces v h.2).similar hrest
  | .define _ _ _, h => h.1.elim
  | .call g args, h =>
    replaces_call (length_mapItemLiterals args) (mapLiterals_replaces g h.2.1)
      (mapItemLiterals_replaces args h.2.2)
  | .array items, h =>
    replaces_array (length_mapItemLiterals items) (mapItemLiterals_replaces items h.2)
  | .object fields, h => .cons rfl rfl ((mapFieldLiterals_replaces fields h.2).append (.same rfl rfl))
  | .case tested branches other, h =>
    replaces_case (mapOptionLiterals_replaces tested h.2.1)
      (mapBranchLiterals_replaces branches h.2.2.1) (mapOptionLiterals_replaces other h.2.2.2)
  | .sequence l r, h =>
    ((mapLiterals_replaces l h.2.1).append (.cons rfl rfl (mapLiterals_replaces r h.2.2))).group

theorem mapItemLiterals_replaces : (es : List Expr) → EveryItem (Replaceable hosts lang f) es →
    Replaces hosts lang [] (compileItems es) (compileItems (mapItemLiterals f es))
  | [], _ => .nil
  | e :: rest, h => (mapLiterals_replaces e h.1).append (mapItemLiterals_replaces rest h.2)

theorem mapFieldLiterals_replaces : (fields : List (String × Expr)) →
    EveryField (Replaceable hosts lang f) fields →
    Replaces hosts lang [] (compileFields fields) (compileFields (mapFieldLiterals f fields))
  | [], _ => .nil
  | (_, e) :: rest, h =>
    (mapLiterals_replaces e h.1).append (.cons rfl rfl (mapFieldLiterals_replaces rest h.2))

theorem mapBranchLiterals_replaces : (branches : List (Expr × Expr)) →
    EveryBranch (Replaceable hosts lang f) branches →
    BranchesFoldTo hosts lang [] branches (mapBranchLiterals f branches)
  | [], _ => ⟨rfl, fun _ => ⟨.nil, .nil⟩⟩
  | (c, v) :: rest, h =>
    .cons (mapLiterals_replaces c h.1) (mapLiterals_replaces v h.2.1)
      (mapBranchLiterals_replaces rest h.2.2)

theorem mapOptionLiterals_replaces : (other : Option Expr) →
    EveryOption (Replaceable hosts lang f) other →
    OptionFoldsTo hosts lang [] other (mapOptionLiterals f other)
  | none, _ => .none
  | some e, h => .some (mapLiterals_replaces e h)

end

end

/-! ### Expressions that are written faithfully -/

/-- Whether an expression, its parts aside, is written as one that does the same: its literals can
be written, what it leaves to its surroundings is read as it is meant, and it defines nothing. -/
def isFaithful (lang : Language Value) : Expr → Bool
  | .literal v => v.isWritable && v.isExact
  | .variable name => isVariableName lang name
  | .unary op e =>
    (lang.unaryOp? op).isSome && (["-", "+", "!"].contains op ||
      !(e.mapLiterals Value.expr).isChain || !(e.mapLiterals Value.expr).opensParen)
  | .binary op _ _ =>
    (Operation.binaryTable.map Prod.fst).contains op && !Instruction.connectives.contains op &&
      lang.isOperatorEnabled op
  | .assign root members _ => isVariableName lang root && members.all isIdentifier
  | .member e name => isIdentifier name && !e.isNumber
  | .object fields => fields.all fun f => !isPlainKey f.1 || isIdentifier f.1
  | .define _ _ _ | .closed _ => false
  | _ => true

variable {lang : Language Value}

theorem readable_of_faithful (hlang : lang.Writes) {e : Expr} (h : isFaithful lang e = true) :
    Readable lang Value.expr e := by
  cases e with
  | literal v =>
    obtain ⟨hwritable, hexact⟩ := Bool.and_eq_true_iff.mp h
    exact Value.readAs_expr hlang hwritable hexact
  | «variable» name => exact isPlain_of_isVariableName h
  | unary op e =>
    obtain ⟨hknown, hbase⟩ := Bool.and_eq_true_iff.mp h
    refine ⟨hknown, fun hop hchain => ?_⟩
    simpa [hop, hchain] using hbase
  | binary op l r =>
    obtain ⟨hnames, henabled⟩ := Bool.and_eq_true_iff.mp h
    obtain ⟨hknown, hconnective⟩ := Bool.and_eq_true_iff.mp hnames
    exact ⟨List.contains_iff_mem.mp hknown, by simpa using hconnective, henabled⟩
  | assign root members v =>
    obtain ⟨hroot, hmembers⟩ := Bool.and_eq_true_iff.mp h
    exact ⟨isPlain_of_isVariableName hroot, List.all_eq_true.mp hmembers⟩
  | member e name =>
    obtain ⟨hname, hpoint⟩ := Bool.and_eq_true_iff.mp h
    exact ⟨hname, by simpa using hpoint⟩
  | object fields =>
    intro f hf hplain
    have hkey := List.all_eq_true.mp h f hf
    simpa [hplain] using hkey
  | define _ _ _ | closed _ => cases h
  | _ => trivial

theorem replaceable_of_faithful {hosts : Hosts} (hlang : Value.Negates lang) {e : Expr}
    (h : isFaithful lang e = true) : Replaceable hosts lang Value.expr e := by
  cases e with
  | literal v =>
    obtain ⟨hwritable, hexact⟩ := Bool.and_eq_true_iff.mp h
    obtain ⟨u, hpushes, -, -, hsame⟩ := Value.pushes_expr hlang v hwritable
    rw [hsame hexact] at hpushes
    exact .push (.literal (hpushes.ready v (List.mem_singleton_self v))) hpushes
  | binary op l r =>
    rintro rfl
    exact absurd h (by simp [isFaithful, Operation.binaryTable])
  | define _ _ _ => cases h
  | _ => trivial

end Expr

/-- The text of an expression that is written faithfully, such as a simplified one, parses to an
expression that comes to the same wherever it is evaluated, at once and after waiting. -/
theorem evaluate_render (id : Nat) {e : Expr}
    (h : e.Every (Expr.isFaithful (.ofOptions id {}) ·)) :
    ∃ e', parseExpr (.ofOptions id {}) (e.render .formula) = .ok e' ∧
      ∀ (hosts : Hosts) (w : World) (r : Except EvalError Value) (w₁ : World),
        ((∃ N, ∀ m ≥ N, e.evaluate hosts m (.ofOptions id {}) w = (ended r, w₁)) ↔
          ∃ N, ∀ m ≥ N, e'.evaluate hosts m (.ofOptions id {}) w = (ended r, w₁)) ∧
        ((∃ N, ∀ m ≥ N, (e.evaluate hosts m (.ofOptions id {}) >>=
            Progress.settle hosts m (.ofOptions id {})) w = (result r, w₁)) ↔
          ∃ N, ∀ m ≥ N, (e'.evaluate hosts m (.ofOptions id {}) >>=
            Progress.settle hosts m (.ofOptions id {})) w = (result r, w₁)) := by
  have hlang := Language.writes_default id
  have hread := Expr.readAs hlang e
    (Expr.Every.mono (fun _ h => Expr.readable_of_faithful hlang h.here) e h)
  refine ⟨e.mapLiterals Value.expr, Expr.parseExpr_of_legible (Expr.legible_of_readAs hread),
    fun hosts w => ?_⟩
  have hreplaces : Replaces hosts (.ofOptions id {}) [] e.compile
      (e.mapLiterals Value.expr).compile :=
    Expr.mapLiterals_replaces e (Expr.Every.mono (fun _ h =>
      Expr.replaceable_of_faithful (Value.negates_standard id {}) h.here) e h)
  exact hreplaces.similar.preserves fun _ _ hget => by cases hget

def foldingSource : String := "n < rate ? 'low' : items[k]"

/-- A negative number, and an array of values that no source spells. -/
def foldingWorld : World :=
  World.start [("rate", .number (-1.5)),
    ("items", .array [.number (-2), .object [("b", .bool true)], .string "a"])] 100

/-- What was left open when the expression was simplified. -/
def foldingLaterWorld : World := World.start [("n", .number 0), ("k", .number 2)] 100

/-- Values that were put in the place of variables are written, read and used again. -/
theorem folding_render : ∃ e q w₁ e', parseExpr (Language.ofOptions 0 {}) foldingSource = .ok e ∧
    e.simplify nullHosts 9 (Language.ofOptions 0 {}) foldingWorld = (.ok q, w₁) ∧
    parseExpr (Language.ofOptions 0 {}) (q.render .formula) = .ok e' ∧
    ∃ v w₂, v.text = "a" ∧ ∃ N, ∀ m ≥ N,
      e'.evaluate nullHosts m (Language.ofOptions 0 {}) foldingLaterWorld =
        (ended (.ok v), w₂) := by
  have hshown : (parseExpr (Language.ofOptions 0 {}) foldingSource).toOption.map (fun e =>
      (e.simplify nullHosts 9 (Language.ofOptions 0 {}) foldingWorld).1.toOption.map fun q =>
        (decide (q.Every (Expr.isFaithful (.ofOptions 0 {}) ·)),
          shown (q.evaluate nullHosts 9 (Language.ofOptions 0 {}) foldingLaterWorld).1)) =
      some (some (true, some "a")) := by
    decide +kernel
  obtain ⟨e, he, hsimplified⟩ := exists_ok_of_map hshown
  rcases hq : e.simplify nullHosts 9 (Language.ofOptions 0 {}) foldingWorld with ⟨o, w₁⟩
  rw [hq] at hsimplified
  obtain ⟨q, rfl, hpair⟩ := exists_ok_of_map hsimplified
  obtain ⟨hfaithful, hvalue⟩ := Prod.mk.inj hpair
  rcases hrun : q.evaluate nullHosts 9 (Language.ofOptions 0 {}) foldingLaterWorld with ⟨o, w₂⟩
  rw [hrun] at hvalue
  match o, hvalue with
  | .ok (.done v), hvalue =>
    obtain ⟨e', he', hsame⟩ := evaluate_render 0 (of_decide_eq_true hfaithful)
    exact ⟨e, q, w₁, e', he, hq, he', v, w₂, Option.some.inj hvalue,
      (hsame nullHosts foldingLaterWorld (.ok v) w₂).1.mp
        (Expr.evaluate_eventually hrun fun h => by cases h)⟩

/-- The error that a run stops with. -/
def Waiting.stopped : Except (Stop EvalError) Progress → Option EvalError
  | .error (.error e) => some e
  | _ => none

/-- A variable that is null is simplified to a literal, whose text is read as a variable again. -/
theorem null_not_reread :
    (parseExpr (Language.ofOptions 0 {}) "x").toOption.bind (fun e =>
      (e.simplify nullHosts 9 (Language.ofOptions 0 {})
        (World.start [("x", .null)] 100)).1.toOption.bind fun q =>
        (parseExpr (Language.ofOptions 0 {}) (q.render .formula)).toOption.map fun e' =>
          (shown (q.evaluate nullHosts 9 (Language.ofOptions 0 {}) (World.start [] 100)).1,
            stopped (e'.evaluate nullHosts 9 (Language.ofOptions 0 {}) (World.start [] 100)).1)) =
      some (some "null", some (.undefinedVariable "null")) := by
  decide +kernel

end Formula

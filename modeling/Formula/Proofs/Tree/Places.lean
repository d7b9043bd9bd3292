import Formula.Proofs.Termination
import Formula.Proofs.Tree.Search
import Formula.Proofs.Values.Units

/-!
# Places in arrays and strings

An index is the integer part of a number as a signed integer of 32 bits: what fits is the place
itself, and other numbers come round to one that fits. In a string an index counts characters, while
its length and the places that `indexOf` finds count 16-bit units. The two agree as far as no
character lies beyond the basic plane.
-/

namespace Formula

open Machine

/-! ### Formulas -/

/-- The formula `a[i]`. -/
def elementExpr (a i : String) : Expr := .binary "[" (.variable a) (.variable i)

/-- The formula `length s`. -/
def lengthExpr (s : String) : Expr := .unary "length" (.variable s)

/-- The formula `s.length`. -/
def memberLengthExpr (s : String) : Expr := .member (.variable s) "length"

/-- The formula `s[indexOf(c, s)] == c`. -/
def foundExpr (c s : String) : Expr :=
  .binary "==" (.binary "[" (.variable s) (indexOfExpr c s)) (.variable c)

/-! ### Any number as an index -/

/-- What the formula `a[i]` comes to for a value and a number: to an element, without its sign if it
is a zero. A deferred element is not known yet, and the operator gives it as it is. -/
structure ElementAt (hosts : Hosts) (lang : Language Value) (w : World) (a i : String) (s : Value)
    (x : Float) (element : Value) : Prop where
  applied : Operation.index.apply [s, .number x] = .ok element
  evaluated : element.isDeferred = false →
    Evaluates hosts lang w (elementExpr a i) element.normalise

section

variable {hosts : Hosts} {id : ℕ} {options : Options} {w : World} {a i : String} {s : Value}
  {parts : List Value} {x : Float} {q : ℚ}
  (hs : s.parts? = some parts) (hx : Number.value? x = some q)
  (ha : Expr.knownVariable? (.ofOptions id options) w.scope a = some s)
  (hi : Expr.knownVariable? (.ofOptions id options) w.scope i = some (.number x))

include hs hx ha hi

theorem elementAt_index : ElementAt hosts (.ofOptions id options) w a i s x
    (partAt parts ((truncate q).bmod (2 ^ 32))) :=
  ⟨congrArg Except.ok (itemAt_eq hs hx), fun hready =>
    .normalised (pushes_part (pushes_variable ha) (pushes_variable hi) hs hx hready)⟩

/-- An index is the integer part of a number modulo `2 ^ 32`, as a signed integer; so it is the
integer part itself where that fits. Where there is no part the element is undefined. -/
theorem index_element :
    ElementAt hosts (.ofOptions id options) w a i s x
        (partAt parts ((truncate q).bmod (2 ^ 32))) ∧
      (-2 ^ 31 ≤ truncate q → truncate q < 2 ^ 31 →
        ElementAt hosts (.ofOptions id options) w a i s x (partAt parts (truncate q))) := by
  refine ⟨elementAt_index hs hx ha hi, fun hlow hhigh => ?_⟩
  rw [← Number.bmod_of_fits hlow hhigh]
  exact elementAt_index hs hx ha hi

end

/-- An index far below zero, with a fraction. -/
def lowIndex : Float := -4294967295.5

def lowIndexWorld : World :=
  World.start [("a", .string "a😀"), ("i", .number lowIndex), ("j", .number 1.5)] 100

/-- It comes round to the second character, which also has an index of its own. -/
theorem lowIndex_element :
    (Value.string "a😀").parts? = some [.string "a", .string "😀"] ∧
      Number.value? lowIndex = some (-8589934591 / 2) ∧ Number.value? 1.5 = some (3 / 2) ∧
      Expr.knownVariable? (.ofOptions 0 {}) lowIndexWorld.scope "a" = some (.string "a😀") ∧
      Expr.knownVariable? (.ofOptions 0 {}) lowIndexWorld.scope "i" = some (.number lowIndex) ∧
      Expr.knownVariable? (.ofOptions 0 {}) lowIndexWorld.scope "j" = some (.number 1.5) ∧
      ElementAt silentHosts (.ofOptions 0 {}) lowIndexWorld "a" "i"
        (.string "a😀") lowIndex (.string "😀") ∧
      ElementAt silentHosts (.ofOptions 0 {}) lowIndexWorld "a" "j"
        (.string "a😀") 1.5 (.string "😀") := by
  have hs : (Value.string "a😀").parts? = some [.string "a", .string "😀"] := rfl
  have hx : Number.value? lowIndex = some (-8589934591 / 2) := by decide +kernel
  have hy : Number.value? 1.5 = some (3 / 2) := by decide +kernel
  have ha : Expr.knownVariable? (.ofOptions 0 {}) lowIndexWorld.scope "a" =
      some (.string "a😀") := rfl
  have hi : Expr.knownVariable? (.ofOptions 0 {}) lowIndexWorld.scope "i" =
      some (.number lowIndex) := rfl
  have hj : Expr.knownVariable? (.ofOptions 0 {}) lowIndexWorld.scope "j" =
      some (.number 1.5) := rfl
  have hround : (truncate (-8589934591 / 2)).bmod (2 ^ 32) = 1 := by decide +kernel
  have hplace : truncate (3 / 2) = 1 := by decide +kernel
  have hlow : ElementAt silentHosts _ lowIndexWorld _ _ _ _ _ := (index_element hs hx ha hi).1
  have hfits : ElementAt silentHosts _ lowIndexWorld _ _ _ _ _ :=
    (index_element hs hy ha hj).2 (by rw [hplace]; norm_num) (by rw [hplace]; norm_num)
  rw [hround] at hlow
  rw [hplace] at hfits
  exact ⟨hs, hx, hy, ha, hi, hj, hlow, hfits⟩

def roundIndexWorld : World :=
  World.start [("a", .array [.string "x"]), ("i", .number 4294967296.0)] 100

/-- An array with one item has an element at the place `2 ^ 32`, the item at the place zero. -/
theorem roundIndex_not_undefined :
    Number.value? 4294967296.0 = some 4294967296 ∧
      partAt [.string "x"] (truncate 4294967296) = .undefined ∧
      Evaluates silentHosts (.ofOptions 0 {}) roundIndexWorld
        (elementExpr "a" "i") (.string "x") ∧
      ¬ ElementAt silentHosts (.ofOptions 0 {}) roundIndexWorld "a" "i"
        (.array [.string "x"]) 4294967296.0 (partAt [.string "x"] (truncate 4294967296)) := by
  have hs : (Value.array [.string "x"]).parts? = some [.string "x"] := rfl
  have hx : Number.value? 4294967296.0 = some 4294967296 := by decide +kernel
  have hpart : partAt [.string "x"] (truncate 4294967296) = .undefined := by
    rw [show truncate 4294967296 = ((4294967296 : ℕ) : ℤ) by decide +kernel, partAt_natCast]
    rfl
  have hplace : (truncate 4294967296).bmod (2 ^ 32) = 0 := by decide +kernel
  have ha : Expr.knownVariable? (.ofOptions 0 {}) roundIndexWorld.scope "a" =
      some (.array [.string "x"]) := rfl
  have hi : Expr.knownVariable? (.ofOptions 0 {}) roundIndexWorld.scope "i" =
      some (.number 4294967296.0) := rfl
  have helement : ElementAt silentHosts _ roundIndexWorld _ _ _ _ _ := elementAt_index hs hx ha hi
  rw [hplace] at helement
  have hvalue : Evaluates silentHosts (.ofOptions 0 {}) roundIndexWorld (elementExpr "a" "i")
      (.string "x") := helement.evaluated rfl
  refine ⟨hx, hpart, hvalue, fun h => ?_⟩
  rw [hpart] at h
  cases hvalue.unique (h.evaluated rfl)

/-! ### Places in a string -/

/-- The character at a place, undefined where there is none. -/
def characterAt (cs : List Char) (n : ℕ) : Value :=
  (cs[n]?.map fun c => .string (.ofList [c])).getD .undefined

theorem characterAt_lt {cs : List Char} {n : ℕ} (h : n < cs.length) :
    characterAt cs n = .string (.ofList [cs[n]]) := by
  rw [characterAt, List.getElem?_eq_getElem h]
  rfl

theorem characterAt_ge {cs : List Char} {n : ℕ} (h : cs.length ≤ n) :
    characterAt cs n = .undefined := by
  rw [characterAt, List.getElem?_eq_none h]
  rfl

theorem characterAt_ready (cs : List Char) (n : ℕ) : (characterAt cs n).isDeferred = false := by
  unfold characterAt
  cases cs[n]? <;> rfl

theorem characterAt_equal (cs : List Char) (n : ℕ) (c : Char) :
    (characterAt cs n).equal (.string (.ofList [c])) = decide (cs[n]? = some c) := by
  unfold characterAt
  cases cs[n]? with
  | none => rfl
  | some d =>
    show (String.ofList [d] == String.ofList [c]) = decide (some d = some c)
    rw [Bool.beq_eq_decide_eq]
    simp

/-- How a string counts its places: an index counts characters, the length and a search count units,
and a character beyond the basic plane takes two of these. -/
structure CountsPlaces (hosts : Hosts) (lang : Language Value) (w : World) (s : String)
    (cs : List Char) : Prop where
  length : Evaluates hosts lang w (lengthExpr s)
    (.number (Float.ofNat (cs.length + Text.beyond cs)))
  member : lang.options.memberAccess = true → Evaluates hosts lang w (memberLengthExpr s)
    (.number (Float.ofNat (cs.length + Text.beyond cs)))
  character : ∀ n (h : n < cs.length), n < 2 ^ 31 →
    Evaluates hosts lang w (itemExpr s n) (.string (.ofList [cs[n]]))
  outside : ∀ n, cs.length ≤ n → n ≤ 2 ^ 31 → Evaluates hosts lang w (itemExpr s n) .undefined
  /-- there is a character at every place below the length only if no character takes two units -/
  everywhere_iff : (∀ n < cs.length + Text.beyond cs, ∃ c,
      Evaluates hosts lang w (itemExpr s n) (.string (.ofList [c]))) ↔
    Text.beyond cs = 0 ∧ cs.length ≤ 2 ^ 31
  /-- the place of the first occurrence of a character, in units -/
  indexOf : ∀ name c, Expr.knownVariable? lang w.scope name = some (.string (.ofList [c])) →
    ∀ before after, cs = before ++ c :: after → c ∉ before →
      Evaluates hosts lang w (indexOfExpr name s)
        (.number (Float.ofNat (before.length + Text.beyond before)))
  /-- what stands at that place when it is taken for an index -/
  found : ∀ name c, Expr.knownVariable? lang w.scope name = some (.string (.ofList [c])) →
    ∀ before after, cs = before ++ c :: after → c ∉ before →
      before.length + Text.beyond before < 2 ^ 31 → Evaluates hosts lang w (foundExpr name s)
        (.bool (cs[before.length + Text.beyond before]? = some c))
  /-- it is the character, as far as the units are the characters -/
  returns : ∀ name c, Expr.knownVariable? lang w.scope name = some (.string (.ofList [c])) →
    ∀ before after, cs = before ++ c :: after → c ∉ before → Text.beyond before = 0 →
      before.length < 2 ^ 31 → Evaluates hosts lang w (foundExpr name s) (.bool true)

section

variable {hosts : Hosts} {id : ℕ} {options : Options} {w : World} {name s : String} {t : String}
  (hs : Expr.knownVariable? (.ofOptions id options) w.scope s = some (.string t))

include hs

theorem evaluates_length : Evaluates hosts (.ofOptions id options) w (lengthExpr s)
    (.number (Float.ofNat (t.toList.length + Text.beyond t.toList))) := by
  have happly : Operation.length.apply [.string t] =
      .ok (.number (Float.ofNat (t.toList.length + Text.beyond t.toList))) := by
    rw [← Text.length16_eq]
    rfl
  exact .of_pushes (Value.normalise_ofNat _) (pushes_unary "length" .length (by decide) (by decide)
    (pushes_variable hs) rfl happly)

theorem evaluates_memberLength (haccess : options.memberAccess = true) :
    Evaluates hosts (.ofOptions id options) w (memberLengthExpr s)
      (.number (Float.ofNat (t.toList.length + Text.beyond t.toList))) := by
  have hmember : (Value.string t).member "length" =
      .number (Float.ofNat (t.toList.length + Text.beyond t.toList)) := by
    rw [← Text.length16_eq]
    rfl
  have hpushes : Pushes hosts (.ofOptions id options) w.scope (memberLengthExpr s).compile
      [(Value.string t).member "length"] :=
    (pushes_variable hs).member haccess (by decide) (by rw [hmember]; rfl)
  rw [hmember] at hpushes
  exact .of_pushes (Value.normalise_ofNat _) hpushes

theorem pushes_character {r : Expr} {n : ℕ} (hn : n < 2 ^ 31)
    (hr : Pushes hosts (.ofOptions id options) w.scope r.compile [.number (Float.ofNat n)]) :
    Pushes hosts (.ofOptions id options) w.scope (Expr.binary "[" (.variable s) r).compile
      [characterAt t.toList n] := by
  have hpart : ((t.toList.map fun c => Value.string (.ofList [c]))[n]?).getD .undefined =
      characterAt t.toList n := by
    rw [List.getElem?_map]
    rfl
  rw [← hpart]
  exact pushes_place hn (pushes_variable hs) hr rfl (by rw [hpart]; exact characterAt_ready _ _)

theorem evaluates_item {n : ℕ} (hn : n < 2 ^ 31) :
    Evaluates hosts (.ofOptions id options) w (itemExpr s n) (characterAt t.toList n) := by
  refine .of_pushes ?_ (pushes_character hs hn (.literal rfl))
  unfold characterAt
  cases t.toList[n]? <;> rfl

/-- The first index that does not fit is a negative one. -/
theorem evaluates_item_limit :
    Evaluates hosts (.ofOptions id options) w (itemExpr s (2 ^ 31)) .undefined := by
  have hplace : (truncate (((2 ^ 31 : ℕ) : ℤ) : ℚ)).bmod (2 ^ 32) = -2 ^ 31 := by
    rw [truncate_intCast]
    decide
  have hpart : partAt (t.toList.map fun c => .string (.ofList [c]))
      ((truncate (((2 ^ 31 : ℕ) : ℤ) : ℚ)).bmod (2 ^ 32)) = .undefined := by
    rw [hplace, partAt_of_neg (by norm_num)]
  have hindex : Pushes hosts (.ofOptions id options) w.scope (indexExpr (2 ^ 31)).compile
      [.number (Float.ofNat (2 ^ 31))] := .literal rfl
  have hpushes := pushes_part (pushes_variable hs) hindex rfl
    (Number.value?_ofNat (by norm_num : 2 ^ 31 < 2 ^ 53)) (by rw [hpart]; rfl)
  rw [hpart] at hpushes
  exact .of_pushes rfl hpushes

theorem evaluates_outside {n : ℕ} (h : t.toList.length ≤ n) (hn : n ≤ 2 ^ 31) :
    Evaluates hosts (.ofOptions id options) w (itemExpr s n) .undefined := by
  rcases Nat.lt_or_eq_of_le hn with hn | rfl
  · rw [← characterAt_ge h]
    exact evaluates_item hs hn
  · exact evaluates_item_limit hs

theorem evaluates_everywhere_iff :
    (∀ n < t.toList.length + Text.beyond t.toList, ∃ c,
      Evaluates hosts (.ofOptions id options) w (itemExpr s n) (.string (.ofList [c]))) ↔
        Text.beyond t.toList = 0 ∧ t.toList.length ≤ 2 ^ 31 := by
  constructor
  · intro h
    -- otherwise the place behind the last character, or the first that is no index, has none
    have hnone : ∀ n, Evaluates hosts (.ofOptions id options) w (itemExpr s n) .undefined →
        t.toList.length + Text.beyond t.toList ≤ n := fun n hn => by
      by_contra hless
      obtain ⟨c, hc⟩ := h n (not_le.mp hless)
      cases hc.unique hn
    have hlimit := hnone _ (evaluates_item_limit hs)
    have hshort : t.toList.length ≤ 2 ^ 31 := by omega
    have hlast := hnone _ (evaluates_outside hs le_rfl hshort)
    exact ⟨by omega, hshort⟩
  · rintro ⟨hbeyond, hshort⟩ n hn
    have hlt : n < t.toList.length := by omega
    have hitem : Evaluates hosts _ w (itemExpr s n) _ := evaluates_item hs (hlt.trans_le hshort)
    rw [characterAt_lt hlt] at hitem
    exact ⟨_, hitem⟩

variable {c : Char} {before after : List Char}
  (hc : Expr.knownVariable? (.ofOptions id options) w.scope name = some (.string (.ofList [c])))
  (ht : t.toList = before ++ c :: after) (hfirst : c ∉ before)

include hc ht hfirst

theorem pushes_search : Pushes hosts (.ofOptions id options) w.scope (indexOfExpr name s).compile
    [.number (Float.ofNat (before.length + Text.beyond before))] := by
  have hbefore : Text.beforeFirst? (Value.string (.ofList [c])).text.toList t.toList =
      some before := by
    rw [ht, Value.text, String.toList_ofList]
    exact Text.beforeFirst?_single hfirst
  have happly : Operation.indexOf.apply [.string (.ofList [c]), .string t] =
      .ok (.number (Float.ofNat (before.length + Text.beyond before))) := by
    simp only [Operation.apply, Operation.firstIndex, Operation.arg, List.getElem?_cons_succ,
      List.getElem?_cons_zero, Option.getD_some, hbefore, Text.length16_eq]
  exact pushes_indexOf hc hs rfl happly

theorem evaluates_found (hplace : before.length + Text.beyond before < 2 ^ 31) :
    Evaluates hosts (.ofOptions id options) w (foundExpr name s)
      (.bool (t.toList[before.length + Text.beyond before]? = some c)) := by
  have happly : Operation.equal.apply
      [characterAt t.toList (before.length + Text.beyond before), .string (.ofList [c])] =
        .ok (.bool (t.toList[before.length + Text.beyond before]? = some c)) :=
    congrArg (fun flag => Except.ok (Value.bool flag)) (characterAt_equal _ _ c)
  exact .of_pushes rfl (pushes_binary "==" .equal (by decide) (by decide) (by decide)
    (pushes_character hs hplace (pushes_search hs hc ht hfirst)) (pushes_variable hc) rfl happly)

end

/-- An index counts the characters of a string, its length and the places that are found in it count
units. -/
theorem string_places {hosts : Hosts} {id : ℕ} {options : Options} {w : World} {s t : String}
    (hs : Expr.knownVariable? (.ofOptions id options) w.scope s = some (.string t)) :
    CountsPlaces hosts (.ofOptions id options) w s t.toList where
  length := evaluates_length hs
  member haccess := evaluates_memberLength hs haccess
  character n h hn := by
    rw [← characterAt_lt h]
    exact evaluates_item hs hn
  outside n h hn := evaluates_outside hs h hn
  everywhere_iff := evaluates_everywhere_iff hs
  indexOf name c hc before after ht hfirst :=
    .of_pushes (Value.normalise_ofNat _) (pushes_search hs hc ht hfirst)
  found name c hc before after ht hfirst hplace := evaluates_found hs hc ht hfirst hplace
  returns name c hc before after ht hfirst hbeyond hshort := by
    have hfound : Evaluates hosts _ w (foundExpr name s) _ :=
      evaluates_found hs hc ht hfirst (by omega)
    have hmem : t.toList[before.length + Text.beyond before]? = some c := by
      rw [hbeyond, ht, Nat.add_zero, List.getElem?_append_right le_rfl, Nat.sub_self]
      rfl
    rwa [decide_eq_true hmem] at hfound

/-- A character that takes two units, then one that takes one. -/
def wideWorld : World := World.start [("c", .string "b"), ("s", .string "😀b")] 100

theorem wide_places :
    Expr.knownVariable? (.ofOptions 0 {}) wideWorld.scope "s" = some (.string "😀b") ∧
      CountsPlaces silentHosts (.ofOptions 0 {}) wideWorld "s" ['😀', 'b'] := by
  have hs : Expr.knownVariable? (.ofOptions 0 {}) wideWorld.scope "s" = some (.string "😀b") := rfl
  exact ⟨hs, string_places hs⟩

/-- Below the length there is a place without a character, and at the place where a character is
found there is none. -/
theorem wide_not_returned :
    Evaluates silentHosts (.ofOptions 0 {}) wideWorld (lengthExpr "s") (.number 3.0) ∧
      (¬ ∃ c, Evaluates silentHosts (.ofOptions 0 {}) wideWorld (itemExpr "s" 2)
        (.string (.ofList [c]))) ∧
      Evaluates silentHosts (.ofOptions 0 {}) wideWorld (indexOfExpr "c" "s") (.number 2.0) ∧
      ¬ Evaluates silentHosts (.ofOptions 0 {}) wideWorld (foundExpr "c" "s") (.bool true) := by
  have hs : Expr.knownVariable? (.ofOptions 0 {}) wideWorld.scope "s" = some (.string "😀b") := rfl
  have hc : Expr.knownVariable? (.ofOptions 0 {}) wideWorld.scope "c" =
      some (.string (.ofList ['b'])) := rfl
  have ht : "😀b".toList = ['😀'] ++ 'b' :: [] := rfl
  have houtside : Evaluates silentHosts (.ofOptions 0 {}) wideWorld (itemExpr "s" 2) .undefined :=
    evaluates_outside hs (by decide) (by norm_num)
  have hfound : Evaluates silentHosts (.ofOptions 0 {}) wideWorld (foundExpr "c" "s")
      (.bool false) :=
    evaluates_found hs hc ht (by decide) (by decide)
  refine ⟨evaluates_length hs, ?_, .of_pushes rfl (pushes_search hs hc ht (by decide)), ?_⟩
  · rintro ⟨c, h⟩
    cases h.unique houtside
  · intro h
    cases h.unique hfound

end Formula

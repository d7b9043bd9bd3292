import Formula.Proofs.Json.Numerals

/-!
# Documents and their texts

The reader gives a document back from both of its texts, the compact one and the wide one, unless
128 arrays and objects are inside one another in it; then it takes neither. A document is read by
its parts: a text is read as a document in front of everything that can stand behind one, so the
texts of the items of an array, with commas between them, are read as the array.
-/

namespace Formula

namespace Json

variable {rest : List Char}

/-! ### Strings -/

theorem hex4?_control : ∀ n : Fin 32,
    hex4? '0' '0' (Nat.digitChar (n / 16)) (Nat.digitChar (n % 16)) = some n.val := by
  decide

theorem readString?_short {letter c : Char} (h : shortEscape? letter = some c)
    (more acc : List Char) :
    readString? ('\\' :: letter :: more) acc = readString? more (c :: acc) := by
  have hu : letter ≠ 'u' := by
    intro hu
    rw [hu] at h
    cases h
  simp [readString?, h, hu]

theorem readString?_plain {c : Char} (hquote : c ≠ '"') (hslash : c ≠ '\\')
    (hcontrol : ¬ c.toNat < 0x20) (more acc : List Char) :
    readString? (c :: more) acc = readString? more (c :: acc) := by
  simp [readString?, hslash, hcontrol]

/-- Four digits stand for a character, whether or not another code follows. -/
theorem readString?_code {a b c d : Char} {n : ℕ} (h : hex4? a b c d = some n) (hn : n < 0xD800)
    (more acc : List Char) :
    readString? ('\\' :: 'u' :: a :: b :: c :: d :: more) acc =
      readString? more (Char.ofNat n :: acc) := by
  have hhigh : isHighSurrogate n = false := by simp [isHighSurrogate]; omega
  have hlow : isLowSurrogate n = false := by simp [isLowSurrogate]; omega
  rw [readString?.eq_def]
  split
  case h_2 heq =>
    cases heq
    rw [h]
    generalize hex4? _ _ _ _ = next?
    cases next? <;> simp only [hhigh, hlow, Bool.or_self, Bool.false_eq_true, if_false]
  case h_3 heq =>
    cases heq
    rw [h]
    simp only [hhigh, hlow, Bool.or_self, Bool.false_eq_true, if_false]
  case h_4 hcode heq =>
    cases heq
    exact (hcode _ _ _ _ _ rfl rfl).elim
  case h_5 hshort heq =>
    cases heq
    exact (hshort _ _ rfl rfl).elim
  all_goals
    next heq =>
    cases heq

/-- A character is read back from the way a document writes it. -/
theorem readString?_escaped (c : Char) (more acc : List Char) :
    readString? (escaped c ++ more) acc = readString? more (c :: acc) := by
  by_cases hshort : c ∈ ['"', '\\', '\x08', '\x0c', '\n', '\r', '\t']
  · simp only [List.mem_cons, List.not_mem_nil, or_false] at hshort
    rcases hshort with rfl | rfl | rfl | rfl | rfl | rfl | rfl <;>
      exact readString?_short rfl more acc
  · simp only [List.mem_cons, List.not_mem_nil, or_false, not_or] at hshort
    obtain ⟨hquote, hslash, hb, hf, hn, hr, ht⟩ := hshort
    simp only [escaped, hquote, hslash, hb, hf, hn, hr, ht, if_false]
    split
    · next hcontrol =>
      have hcode := hex4?_control ⟨c.toNat, hcontrol⟩
      have hread := readString?_code hcode (hcontrol.trans (by decide)) more acc
      rw [Char.ofNat_toNat] at hread
      exact hread
    · next hcontrol => exact readString?_plain hquote hslash hcontrol more acc

theorem readString?_flatMap (cs acc : List Char) :
    readString? (cs.flatMap escaped ++ '"' :: rest) acc =
      some (String.ofList (acc.reverse ++ cs), rest) := by
  induction cs generalizing acc with
  | nil =>
    rw [List.flatMap_nil, List.nil_append, List.append_nil, readString?]
  | cons c cs ih =>
    rw [List.flatMap_cons, List.append_assoc, readString?_escaped, ih, List.reverse_cons,
      List.append_assoc, List.singleton_append]

/-- A string is read back from its text. -/
theorem readString?_quote (s : String) (rest : List Char) :
    readString? (s.toList.flatMap escaped ++ '"' :: rest) [] = some (s, rest) := by
  rw [readString?_flatMap, List.reverse_nil, List.nil_append, String.ofList_toList]

theorem quote_append (s : String) (rest : List Char) :
    (quote s).toList ++ rest = '"' :: (s.toList.flatMap escaped ++ '"' :: rest) := by
  rw [quote, String.toList_ofList, List.cons_append, List.append_assoc, List.singleton_append]

/-! ### Texts of documents -/

mutual

/-- How many arrays and objects are inside one another. -/
def nesting : Json → ℕ
  | .null | .bool _ | .integer _ | .number _ | .string _ => 0
  | .array items => itemsNesting items + 1
  | .object members => membersNesting members + 1

def itemsNesting : List Json → ℕ
  | [] => 0
  | item :: rest => max (nesting item) (itemsNesting rest)

def membersNesting : List (String × Json) → ℕ
  | [] => 0
  | (_, item) :: rest => max (nesting item) (membersNesting rest)

end

/-- A text that the reader takes for a document, whatever closes it, unless the document is nested
deeper than it may be. -/
def Reads (j : Json) (cs : List Char) : Prop :=
  ∀ fuel depth rest, cs.length ≤ fuel → 1 ≤ depth → Closes rest →
    readValue? fuel depth (cs ++ rest) = if nesting j < depth then some (j, rest) else none

/-- Blanks, which stand between the tokens in the wide form. -/
def Blanks (cs : List Char) : Prop := ∀ c ∈ cs, isBlank c = true

variable {j : Json} {cs ds bs : List Char} {fuel depth : ℕ}

theorem skipBlanks_append (h : Blanks bs) (cs : List Char) :
    skipBlanks (bs ++ cs) = skipBlanks cs := List.dropWhile_append_of_pos h

theorem skipBlanks_skipBlanks (cs : List Char) : skipBlanks (skipBlanks cs) = skipBlanks cs :=
  List.dropWhile_idempotent _ cs

theorem skipBlanks_mark {c : Char} (h : c ∈ [',', ']', '\x7d']) (cs : List Char) :
    skipBlanks (c :: cs) = c :: cs := by
  simp only [List.mem_cons, List.not_mem_nil, or_false] at h
  rcases h with rfl | rfl | rfl <;> exact skipBlanks_cons rfl cs

theorem Closes.mark {c : Char} (h : c ∈ [',', ']', '\x7d']) : Closes (c :: rest) := fun d hd => by
  obtain rfl : c = d := Option.some.inj hd
  exact .inr h

theorem Closes.blanks (h : Blanks bs) (hrest : Closes rest) : Closes (bs ++ rest) := by
  intro c hc
  cases bs with
  | nil => exact hrest c hc
  | cons b bs =>
    obtain rfl : b = c := Option.some.inj hc
    exact .inl (h b List.mem_cons_self)

theorem readValue?_skipBlanks (cs : List Char) :
    readValue? fuel depth (skipBlanks cs) = readValue? fuel depth cs := by
  cases fuel with
  | zero => rfl
  | succ fuel => rw [readValue?, readValue?, skipBlanks_skipBlanks]

theorem Reads.blanks (h : Reads j cs) (hbs : Blanks bs) : Reads j (bs ++ cs) := by
  intro fuel depth rest hfuel hdepth hrest
  rw [List.length_append] at hfuel
  rw [List.append_assoc, ← readValue?_skipBlanks, skipBlanks_append hbs, readValue?_skipBlanks]
  exact h fuel depth rest (by omega) hdepth hrest

/-! ### Scalars -/

/-- A text that is read whatever the depth. -/
theorem Reads.of_scalar (hnesting : nesting j = 0)
    (h : ∀ fuel depth rest, Closes rest →
      readValue? (fuel + 1) depth (cs ++ rest) = some (j, rest)) : Reads j cs := by
  intro fuel depth rest hfuel hdepth hrest
  have hne : cs ≠ [] := by
    intro hnil
    have hread := h 0 0 [] fun _ hc => by cases hc
    rw [hnil] at hread
    cases hread
  have hpos : 0 < cs.length := List.length_pos_iff.mpr hne
  obtain ⟨fuel, rfl⟩ : ∃ f, fuel = f + 1 := ⟨fuel - 1, by omega⟩
  rw [h fuel depth rest hrest, if_pos (by omega)]

theorem reads_null : Reads .null "null".toList :=
  .of_scalar rfl fun _ _ _ _ => rfl

theorem reads_bool (b : Bool) : Reads (.bool b) (if b then "true" else "false").toList := by
  cases b
  · exact .of_scalar rfl fun _ _ _ _ => rfl
  · exact .of_scalar rfl fun _ _ _ _ => rfl

theorem reads_string (s : String) : Reads (.string s) (quote s).toList := by
  refine .of_scalar rfl fun fuel depth rest _ => ?_
  rw [readValue?, quote_append, skipBlanks_cons rfl]
  simp only [readString?_quote, Option.map_some]

theorem reads_integer {i : ℤ} (hlow : -2 ^ 63 ≤ i) (hhigh : i < 2 ^ 64) :
    Reads (.integer i) (toString i).toList :=
  .of_scalar rfl fun _ _ _ hrest => readValue?_integer hlow hhigh hrest

theorem reads_number {x : Float} (h : x.isFinite = true) :
    Reads (.number x) (Number.jsonText x).toList :=
  .of_scalar rfl fun _ _ _ hrest => readValue?_number h hrest

/-! ### Lists -/

/-- How the reader takes what stands between two marks, element after element. Arrays and objects
are read alike. -/
structure Listing (α : Type) where
  opening : Char
  close : Char
  wrap : List α → Json
  nesting : α → ℕ
  read : (fuel depth : ℕ) → List Char → List α → Option (List α × List Char)
  /-- goes on behind an element -/
  next : (fuel depth : ℕ) → List Char → List α → Option (List α × List Char)
  close_mark : close ∈ [',', ']', '\x7d']
  nesting_wrap : ∀ xs, (wrap xs).nesting = (xs.map nesting).foldr max 0 + 1
  open_closed : ∀ fuel depth cs rest, skipBlanks cs = close :: rest →
    readValue? (fuel + 1) depth (opening :: cs) = if depth ≤ 1 then none else some (wrap [], rest)
  open_list : ∀ fuel depth cs, (∀ rest, skipBlanks cs ≠ close :: rest) →
    readValue? (fuel + 1) depth (opening :: cs) =
      if depth ≤ 1 then none
      else (read fuel (depth - 1) (skipBlanks cs) []).map fun (xs, rest) => (wrap xs, rest)
  read_skip : ∀ fuel depth cs acc, read fuel depth (skipBlanks cs) acc = read fuel depth cs acc
  read_closed : ∀ fuel depth cs rest acc, skipBlanks cs = close :: rest →
    read fuel depth cs acc = none
  next_comma : ∀ fuel depth rest acc, next fuel depth (',' :: rest) acc = read fuel depth rest acc
  next_close : ∀ fuel depth rest acc, next fuel depth (close :: rest) acc = some (acc.reverse, rest)

namespace Listing

variable {α : Type} {L : Listing α} {x : α} {xs : List α} {bs' : List Char}

/-- The nesting of the element that is nested deepest. -/
def deepest (L : Listing α) (xs : List α) : ℕ := (xs.map L.nesting).foldr max 0

/-- A text of an element. -/
def Element (L : Listing α) (x : α) (cs : List Char) : Prop :=
  ∀ fuel depth rest acc, cs.length ≤ fuel → 1 ≤ depth → Closes rest →
    L.read (fuel + 1) depth (cs ++ rest) acc =
      if L.nesting x < depth then L.next fuel depth (skipBlanks rest) (x :: acc) else none

/-- A text of elements, with the mark that closes them. -/
def Reads (L : Listing α) (xs : List α) (cs : List Char) : Prop :=
  ∀ fuel depth rest acc, cs.length ≤ fuel → 1 ≤ depth →
    L.read fuel depth (cs ++ rest) acc =
      if L.deepest xs < depth then some (acc.reverse ++ xs, rest) else none

theorem Reads.blanks (h : L.Reads xs cs) (hbs : Blanks bs) : L.Reads xs (bs ++ cs) := by
  intro fuel depth rest acc hfuel hdepth
  rw [List.length_append] at hfuel
  rw [List.append_assoc, ← L.read_skip, skipBlanks_append hbs, L.read_skip]
  exact h fuel depth rest acc (by omega) hdepth

theorem Element.single (h : L.Element x cs) (hbs : Blanks bs) :
    L.Reads [x] (cs ++ (bs ++ [L.close])) := by
  intro fuel depth rest acc hfuel hdepth
  simp only [List.length_append, List.length_singleton] at hfuel
  obtain ⟨fuel, rfl⟩ : ∃ f, fuel = f + 1 := ⟨fuel - 1, by omega⟩
  have hcloses : Closes (bs ++ L.close :: rest) := (Closes.mark L.close_mark).blanks hbs
  have hdeepest : L.deepest [x] = L.nesting x := Nat.max_zero _
  rw [List.append_assoc, List.append_assoc, List.singleton_append,
    h fuel depth _ acc (by omega) hdepth hcloses, skipBlanks_append hbs,
    skipBlanks_mark L.close_mark, L.next_close, hdeepest, List.reverse_cons]

theorem Element.cons (h : L.Element x cs) (hrest : L.Reads xs ds) :
    L.Reads (x :: xs) (cs ++ ',' :: ds) := by
  intro fuel depth rest acc hfuel hdepth
  simp only [List.length_append, List.length_cons] at hfuel
  obtain ⟨fuel, rfl⟩ : ∃ f, fuel = f + 1 := ⟨fuel - 1, by omega⟩
  have hcloses : Closes (',' :: (ds ++ rest)) := .mark (by decide)
  have hdeepest : L.deepest (x :: xs) = max (L.nesting x) (L.deepest xs) := rfl
  rw [List.append_assoc, List.cons_append, h fuel depth _ acc (by omega) hdepth hcloses,
    skipBlanks_mark (by decide), L.next_comma, hrest fuel depth rest (x :: acc) (by omega) hdepth,
    hdeepest, List.reverse_cons, List.append_assoc, List.singleton_append]
  by_cases hx : L.nesting x < depth
  · simp only [max_lt_iff, hx, if_true, true_and]
  · rw [if_neg hx, if_neg (by omega)]

/-- Elements with commas and blanks between them, and blanks before the closing mark. -/
theorem reads_intercalate (hbs : Blanks bs) (hbs' : Blanks bs') {texts : List (List Char)}
    (h : List.Forall₂ L.Element xs texts) (hne : xs ≠ []) :
    L.Reads xs ((',' :: bs).intercalate texts ++ (bs' ++ [L.close])) := by
  induction h with
  | nil => exact absurd rfl hne
  | cons hhead htail ih =>
    cases htail with
    | nil =>
      rw [List.intercalate_singleton]
      exact hhead.single hbs'
    | cons hnext htail =>
      have hread := (ih (List.cons_ne_nil _ _)).blanks hbs
      rw [List.intercalate_cons_cons, List.append_assoc, List.append_assoc, List.cons_append]
      exact hhead.cons hread

/-- Elements do not start with the mark that closes them. -/
theorem Reads.open (h : L.Reads xs cs) (rest more : List Char) :
    skipBlanks (cs ++ rest) ≠ L.close :: more := by
  intro hclosed
  have hread := h cs.length (L.deepest xs + 1) rest [] (by omega) (by omega)
  rw [L.read_closed _ _ _ more _ hclosed, if_pos (by omega)] at hread
  cases hread

/-- The opening mark before elements. -/
theorem Reads.wrap (h : L.Reads xs cs) : (L.wrap xs).Reads (L.opening :: cs) := by
  intro fuel depth rest hfuel hdepth hrest
  rw [List.length_cons] at hfuel
  obtain ⟨fuel, rfl⟩ : ∃ f, fuel = f + 1 := ⟨fuel - 1, by omega⟩
  have hnesting : (L.wrap xs).nesting = L.deepest xs + 1 := L.nesting_wrap xs
  rw [List.cons_append, L.open_list fuel depth _ (h.open rest), hnesting]
  by_cases hdepth' : depth ≤ 1
  · rw [if_pos hdepth', if_neg (by omega)]
  · rw [if_neg hdepth', L.read_skip, h fuel (depth - 1) rest [] (by omega) (by omega)]
    by_cases hdeep : L.deepest xs < depth - 1
    · rw [if_pos hdeep, if_pos (by omega)]
      rfl
    · rw [if_neg hdeep, if_neg (by omega)]
      rfl

/-- Both marks with nothing between them. -/
theorem reads_nil (L : Listing α) : (L.wrap []).Reads [L.opening, L.close] := by
  intro fuel depth rest hfuel hdepth hrest
  obtain ⟨fuel, rfl⟩ : ∃ f, fuel = f + 1 := ⟨fuel - 1, by change 2 ≤ fuel at hfuel; omega⟩
  have hnesting : (L.wrap []).nesting = 1 := L.nesting_wrap []
  rw [List.cons_append, List.singleton_append,
    L.open_closed fuel depth _ rest (skipBlanks_mark L.close_mark rest), hnesting]
  simp only [← not_le, ite_not]

variable {opening closing : String} {texts : List String}

theorem reads_compact (hopening : opening.toList = [L.opening])
    (hclosing : closing.toList = [L.close]) (h : List.Forall₂ L.Element xs (texts.map String.toList)) :
    (L.wrap xs).Reads (opening ++ String.intercalate "," texts ++ closing).toList := by
  have htext : (opening ++ String.intercalate "," texts ++ closing).toList =
      L.opening :: ([','].intercalate (texts.map String.toList) ++ [L.close]) := by
    simp [String.toList_intercalate, hopening, hclosing]
  rw [htext]
  cases xs with
  | nil =>
    rw [List.forall₂_nil_left_iff.mp h]
    exact L.reads_nil
  | cons x xs =>
    have hbare : Blanks [] := fun _ hc => by cases hc
    exact (reads_intercalate hbare hbare h (List.cons_ne_nil x xs)).wrap

theorem blanks_newline (depth : ℕ) : Blanks (newline depth).toList := by
  intro c hc
  have hchars : (newline depth).toList = '\n' :: List.replicate (2 * depth) ' ' := by
    simp [newline]
  rw [hchars] at hc
  rcases List.mem_cons.mp hc with rfl | hc
  · rfl
  · rw [List.eq_of_mem_replicate hc]
    rfl

theorem reads_lines (hopening : opening.toList = [L.opening])
    (hclosing : closing.toList = [L.close])
    (h : List.Forall₂ L.Element xs (texts.map String.toList)) (depth : ℕ) :
    (L.wrap xs).Reads (lines opening closing depth texts).toList := by
  cases xs with
  | nil =>
    have htexts : texts = [] := List.map_eq_nil_iff.mp (List.forall₂_nil_left_iff.mp h)
    have htext : (lines opening closing depth texts).toList = [L.opening, L.close] := by
      simp [lines, htexts, hopening, hclosing]
    rw [htext]
    exact L.reads_nil
  | cons x xs =>
    have htexts : texts ≠ [] := by
      intro hnil
      rw [hnil] at h
      cases h
    have htext : (lines opening closing depth texts).toList = L.opening ::
        ((newline (depth + 1)).toList ++ ((',' :: (newline (depth + 1)).toList).intercalate
          (texts.map String.toList) ++ ((newline depth).toList ++ [L.close]))) := by
      simp [lines, htexts, String.toList_intercalate, hopening, hclosing]
    have hread := reads_intercalate (blanks_newline (depth + 1)) (blanks_newline depth) h
      (List.cons_ne_nil x xs)
    rw [htext]
    exact (hread.blanks (blanks_newline (depth + 1))).wrap

end Listing

/-! ### Arrays and objects -/

/-- What follows an item. -/
def nextItem? (fuel depth : ℕ) (rest : List Char) (acc : List Json) :
    Option (List Json × List Char) :=
  match rest with
  | ',' :: rest => readItems? fuel depth rest acc
  | ']' :: rest => some (acc.reverse, rest)
  | _ => none

theorem readItems?_succ (cs : List Char) (acc : List Json) :
    readItems? (fuel + 1) depth cs acc =
      (readValue? fuel depth cs).bind fun (item, rest) =>
        nextItem? fuel depth (skipBlanks rest) (item :: acc) := by
  rw [readItems?]
  cases readValue? fuel depth cs <;> rfl

theorem readValue?_array (cs : List Char) :
    readValue? (fuel + 1) depth ('[' :: cs) =
      if depth ≤ 1 then none
      else
        match skipBlanks cs with
        | ']' :: rest => some (.array [], rest)
        | rest =>
          (readItems? fuel (depth - 1) rest []).map fun (items, rest) => (.array items, rest) := by
  rw [readValue?, skipBlanks_cons rfl]
  rfl

theorem itemsNesting_eq :
    (items : List Json) → itemsNesting items = (items.map nesting).foldr max 0
  | [] => rfl
  | item :: rest => congrArg (max (nesting item)) (itemsNesting_eq rest)

def itemListing : Listing Json where
  opening := '['
  close := ']'
  wrap := array
  nesting := nesting
  read := readItems?
  next := nextItem?
  close_mark := by decide
  nesting_wrap items := congrArg (· + 1) (itemsNesting_eq items)
  open_closed fuel depth cs rest h := by
    rw [readValue?_array]
    simp only [h]
  open_list fuel depth cs h := by
    rw [readValue?_array]
    split
    · rfl
    · split
      · next heq => exact absurd heq (h _)
      · rfl
  read_skip fuel depth cs acc := by
    cases fuel with
    | zero => rfl
    | succ fuel => rw [readItems?, readItems?, readValue?_skipBlanks]
  read_closed fuel depth cs rest acc h := by
    match fuel with
    | 0 => rfl
    | 1 => rfl
    | fuel + 2 =>
      have hvalue : readValue? (fuel + 1) depth cs = none := by
        rw [readValue?, h]
        rfl
      rw [readItems?, hvalue]
  next_comma _ _ _ _ := rfl
  next_close _ _ _ _ := rfl

theorem Reads.item (h : Reads j cs) : itemListing.Element j cs := by
  intro fuel depth rest acc hfuel hdepth hrest
  have hread : itemListing.read (fuel + 1) depth (cs ++ rest) acc = _ := readItems?_succ _ acc
  have hnesting : itemListing.nesting j = nesting j := rfl
  rw [h fuel depth rest hfuel hdepth hrest] at hread
  rw [hread, hnesting]
  by_cases hj : nesting j < depth
  · rw [if_pos hj, if_pos hj]
    rfl
  · rw [if_neg hj, if_neg hj]
    rfl

/-- What follows a member. -/
def nextMember? (fuel depth : ℕ) (rest : List Char) (acc : List (String × Json)) :
    Option (List (String × Json) × List Char) :=
  match rest with
  | ',' :: rest => readMembers? fuel depth rest acc
  | '\x7d' :: rest => some (acc.reverse, rest)
  | _ => none

theorem readMembers?_name (name : String) (cs : List Char) (acc : List (String × Json)) :
    readMembers? (fuel + 1) depth ((quote name).toList ++ ':' :: cs) acc =
      (readValue? fuel depth cs).bind fun (item, rest) =>
        nextMember? fuel depth (skipBlanks rest) ((name, item) :: acc) := by
  have hread := readString?_quote name (':' :: cs)
  rw [quote_append, readMembers?, skipBlanks_cons rfl]
  simp only [hread, skipBlanks_cons (rfl : isBlank ':' = false)]
  cases readValue? fuel depth cs <;> rfl

theorem readValue?_object (cs : List Char) :
    readValue? (fuel + 1) depth ('\x7b' :: cs) =
      if depth ≤ 1 then none
      else
        match skipBlanks cs with
        | '\x7d' :: rest => some (.object [], rest)
        | rest =>
          (readMembers? fuel (depth - 1) rest []).map fun (ms, rest) => (.object ms, rest) := by
  rw [readValue?, skipBlanks_cons rfl]
  rfl

theorem membersNesting_eq : (members : List (String × Json)) →
    membersNesting members = (members.map fun member => nesting member.2).foldr max 0
  | [] => rfl
  | (_, item) :: rest => congrArg (max (nesting item)) (membersNesting_eq rest)

def memberListing : Listing (String × Json) where
  opening := '\x7b'
  close := '\x7d'
  wrap := object
  nesting member := nesting member.2
  read := readMembers?
  next := nextMember?
  close_mark := by decide
  nesting_wrap members := congrArg (· + 1) (membersNesting_eq members)
  open_closed fuel depth cs rest h := by
    rw [readValue?_object]
    simp only [h]
  open_list fuel depth cs h := by
    rw [readValue?_object]
    split
    · rfl
    · split
      · next heq => exact absurd heq (h _)
      · rfl
  read_skip fuel depth cs acc := by
    cases fuel with
    | zero => rfl
    | succ fuel => rw [readMembers?, readMembers?, skipBlanks_skipBlanks]
  read_closed fuel depth cs rest acc h := by
    cases fuel with
    | zero => rfl
    | succ fuel =>
      rw [readMembers?, h]
      rfl
  next_comma _ _ _ _ := rfl
  next_close _ _ _ _ := rfl

theorem memberListing_read : memberListing.read = readMembers? := rfl

theorem memberListing_nesting (name : String) : memberListing.nesting (name, j) = nesting j := rfl

/-- A member is its name, a colon and a text of its value. -/
theorem Reads.member (h : Reads j cs) (name : String) :
    memberListing.Element (name, j) ((quote name).toList ++ ':' :: cs) := by
  intro fuel depth rest acc hfuel hdepth hrest
  simp only [List.length_append, List.length_cons] at hfuel
  rw [List.append_assoc, List.cons_append, memberListing_read, memberListing_nesting,
    readMembers?_name, h fuel depth rest (by omega) hdepth hrest]
  by_cases hj : nesting j < depth
  · rw [if_pos hj, if_pos hj]
    rfl
  · rw [if_neg hj, if_neg hj]
    rfl

/-! ### Both texts -/

mutual

/-- Whether the reader takes the numbers in a document: integers of 64 bits, with a sign or without,
and finite numbers. -/
def isPrintable : Json → Bool
  | .null | .bool _ | .string _ => true
  | .integer i => -2 ^ 63 ≤ i && i < 2 ^ 64
  | .number x => x.isFinite
  | .array items => itemsPrintable items
  | .object members => membersPrintable members

def itemsPrintable : List Json → Bool
  | [] => true
  | item :: rest => isPrintable item && itemsPrintable rest

def membersPrintable : List (String × Json) → Bool
  | [] => true
  | (_, item) :: rest => isPrintable item && membersPrintable rest

end

theorem reads_integer_text {i : ℤ} (h : (integer i).isPrintable = true) :
    Reads (.integer i) (toString i).toList := by
  simp only [isPrintable, Bool.and_eq_true, decide_eq_true_eq] at h
  exact reads_integer h.1 h.2

mutual

theorem reads_compact : (j : Json) → j.isPrintable = true → Reads j j.compact.toList
  | .null, _ => reads_null
  | .bool b, _ => reads_bool b
  | .integer _, h => reads_integer_text h
  | .number _, h => reads_number h
  | .string s, _ => reads_string s
  | .array items, h => itemListing.reads_compact rfl rfl (items_compact items h)
  | .object members, h => memberListing.reads_compact rfl rfl (members_compact members h)

theorem items_compact : (items : List Json) → itemsPrintable items = true →
    List.Forall₂ itemListing.Element items ((compactItems items).map String.toList)
  | [], _ => .nil
  | item :: rest, h => by
    obtain ⟨hitem, hrest⟩ := Bool.and_eq_true_iff.mp h
    exact .cons (reads_compact item hitem).item (items_compact rest hrest)

theorem members_compact : (members : List (String × Json)) → membersPrintable members = true →
    List.Forall₂ memberListing.Element members ((compactMembers members).map String.toList)
  | [], _ => .nil
  | (name, item) :: rest, h => by
    obtain ⟨hitem, hrest⟩ := Bool.and_eq_true_iff.mp h
    have htext : (quote name ++ ":" ++ compact item).toList =
        (quote name).toList ++ ':' :: (compact item).toList := by simp
    rw [compactMembers, List.map_cons, htext]
    exact .cons ((reads_compact item hitem).member name) (members_compact rest hrest)

end

mutual

theorem reads_wide (depth : ℕ) : (j : Json) → j.isPrintable = true → Reads j (j.wide depth).toList
  | .null, _ => reads_null
  | .bool b, _ => reads_bool b
  | .integer _, h => reads_integer_text h
  | .number _, h => reads_number h
  | .string s, _ => reads_string s
  | .array items, h => itemListing.reads_lines rfl rfl (items_wide (depth + 1) items h) depth
  | .object members, h =>
    memberListing.reads_lines rfl rfl (members_wide (depth + 1) members h) depth

theorem items_wide (depth : ℕ) : (items : List Json) → itemsPrintable items = true →
    List.Forall₂ itemListing.Element items ((wideItems depth items).map String.toList)
  | [], _ => .nil
  | item :: rest, h => by
    obtain ⟨hitem, hrest⟩ := Bool.and_eq_true_iff.mp h
    exact .cons (reads_wide depth item hitem).item (items_wide depth rest hrest)

theorem members_wide (depth : ℕ) : (members : List (String × Json)) →
    membersPrintable members = true →
    List.Forall₂ memberListing.Element members ((wideMembers depth members).map String.toList)
  | [], _ => .nil
  | (name, item) :: rest, h => by
    obtain ⟨hitem, hrest⟩ := Bool.and_eq_true_iff.mp h
    have hblank : Blanks [' '] := fun c hc => by
      obtain rfl := List.mem_singleton.mp hc
      rfl
    have htext : (quote name ++ ": " ++ wide depth item).toList =
        (quote name).toList ++ ':' :: ([' '] ++ (wide depth item).toList) := by simp
    rw [wideMembers, List.map_cons, htext]
    exact .cons (((reads_wide depth item hitem).blanks hblank).member name)
      (members_wide depth rest hrest)

end

/-- The reader takes a whole text for its document, unless this is nested too deep. -/
theorem Reads.read? {s : String} (h : Reads j s.toList) :
    Json.read? s = if nesting j < 128 then some j else none := by
  have hread := h (2 * s.toList.length + 2) 128 [] (by omega) (by decide) fun _ hc => by cases hc
  rw [List.append_nil] at hread
  unfold Json.read?
  simp only [hread]
  by_cases hj : nesting j < 128
  · rw [if_pos hj, if_pos hj]
    rfl
  · rw [if_neg hj, if_neg hj]

/-- Both texts of a document are read alike. -/
theorem read?_texts (h : j.isPrintable = true) :
    read? j.compact = (if nesting j < 128 then some j else none) ∧
      read? j.pretty = if nesting j < 128 then some j else none :=
  ⟨(reads_compact j h).read?, (reads_wide 0 j h).read?⟩

end Json

end Formula

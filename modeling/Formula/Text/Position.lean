/-!
# Places in a source text

Positions count lines and columns from one, a column per character. A range runs from the position
of its first character to the position after its last one. Byte offsets are found by walking the
text, so a position beyond the end of its line runs on into the text that follows.
-/

namespace Formula

/-- A line and a column, both counted from one. -/
structure Position where
  line : Nat
  column : Nat
deriving DecidableEq, Repr, Inhabited

namespace Position

/-- The position of the first character of a text. -/
def first : Position := ⟨1, 1⟩

/-- The position after the character `c` at `p`. -/
def next (p : Position) (c : Char) : Position :=
  if c = '\n' then ⟨p.line + 1, 1⟩ else ⟨p.line, p.column + 1⟩

/-- The position after all characters of a text that starts at `p`. -/
def after (p : Position) (cs : List Char) : Position := cs.foldl next p

/-- Positions are ordered by line, then by column. -/
def compare (p q : Position) : Ordering :=
  (Ord.compare p.line q.line).then (Ord.compare p.column q.column)

/-- A position is written `[line:column]`. -/
def text (p : Position) : String := "[" ++ toString p.line ++ ":" ++ toString p.column ++ "]"

end Position

/-- The stretch of text from `start` up to `stop`. -/
structure Range where
  start : Position
  stop : Position
deriving DecidableEq, Repr, Inhabited

namespace Range

/-- Both ends belong to a range; a position on an inner line always does, whatever its column. -/
def contains (r : Range) (p : Position) : Bool :=
  (r.start.line < p.line || (r.start.line == p.line && r.start.column ≤ p.column))
    && (p.line < r.stop.line || (r.stop.line == p.line && p.column ≤ r.stop.column))

end Range

/-! ### Byte offsets -/

/-- Walks the text until the wanted line and column are both reached, counting bytes. -/
def walkTo (line column : Nat) : List Char → (l c offset : Nat) → Nat
  | [], _, _, offset => offset
  | ch :: rest, l, c, offset =>
    if line ≤ l + 1 ∧ column ≤ c + 1 then offset
    else if ch = '\n' then walkTo line column rest (l + 1) 0 (offset + ch.utf8Size)
    else walkTo line column rest l (c + 1) (offset + ch.utf8Size)

/-- The byte offset of a position in a text. -/
def Position.offset (p : Position) (source : List Char) : Nat := walkTo p.line p.column source 0 0 0

/-- A stretch of bytes: where it starts and how long it is. -/
structure Span where
  offset : Nat
  length : Nat
deriving DecidableEq, Repr

/-- The bytes of a range, at least one. -/
def Range.span (r : Range) (source : List Char) : Span :=
  let start := r.start.offset source
  ⟨start, max (r.stop.offset source - start) 1⟩

end Formula

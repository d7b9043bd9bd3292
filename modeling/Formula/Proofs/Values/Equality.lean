import Formula.Operation.Apply
import Formula.Proofs.Numbers.Integral

/-!
# Equality of values and numbers as indices

Equality does not depend on the order of its operands, for values of every kind: numbers with NaN
and two zeros, functions by identity, arrays and objects by content. An index reads the part of an
array or a string at its integer part, as conversion to 32 bits has it; the natural numbers below
`2 ^ 53` are doubles, so those below `2 ^ 31` are the places themselves.
-/

namespace Formula

/-! ### Numbers -/

namespace Rounding

open Float.Model

variable {u v : UnpackedFloat}

/-- A comparison the other way gives the opposite; only finite numbers of one sign have their parts
compared. -/
theorem compare_swap (u v : UnpackedFloat) : u.compare v = (v.compare u).map Ordering.swap := by
  have hparts : ∀ (e e' : ℤ) (m m' : ℕ), (compare e e').then (compare m m') =
      ((compare e' e).then (compare m' m)).swap := fun e e' m m' => by
    rw [Ordering.swap_then, Std.OrientedOrd.eq_swap (a := e), Std.OrientedOrd.eq_swap (a := m)]
  rcases u with s | _ | s | ⟨s, M, E, hM⟩ <;> rcases v with s' | _ | s' | ⟨s', M', E', hM'⟩ <;>
    (try cases s) <;> (try cases s') <;> first | rfl | skip
  · exact congrArg (fun o => some (Ordering.swap o)) (hparts E E' M M')
  · exact congrArg some (hparts E E' M M')

theorem beq_comm (u v : UnpackedFloat) : u.beq v = v.beq u := by
  unfold UnpackedFloat.beq
  rw [compare_swap u v]
  cases v.compare u with
  | none => rfl
  | some o => cases o <;> rfl

end Rounding

namespace Number

open Rounding Float.Model

/-- A natural number is converted to a double as the decimal with its digits. -/
theorem ofNat_eq_toFloat {n : ℕ} (hn : 0 < n) : Float.ofNat n = Decimal.toFloat ⟨n, 0⟩ := by
  unfold Decimal.toFloat
  rw [if_neg hn.ne', if_neg (by dsimp only; omega), if_neg (by dsimp only; omega)]
  rfl

/-- A natural number that is a mantissa times a power of two is converted to that double. -/
theorem ofNat_eq_finite {n M : ℕ} {E : ℤ} (hc : Canonical M E) (hE : E ≤ 971)
    (h : (n : ℚ) = M * 2 ^ E) : Float.ofNat n = finite false M E hc.pos := by
  have hn : 0 < n := by
    have hM : (0 : ℚ) < M := by exact_mod_cast hc.pos
    have hpos : (0 : ℚ) < n := h ▸ mul_pos hM (two_zpow_pos E)
    exact_mod_cast hpos
  have hdecimal : (⟨n, 0⟩ : Decimal).value = n := by simp [Decimal.value]
  rw [ofNat_eq_toFloat hn]
  exact Decimal.toFloat_eq hc hE (Near.exact (hdecimal ▸ h))

/-- The parts of a natural number below `2 ^ 53`. -/
theorem decode?_ofNat {n : ℕ} (hn : 0 < n) (hb : n < 2 ^ 53) :
    decode? (Float.ofNat n) = some ⟨false, n <<< (52 - n.log2), (n.log2 : ℤ) - 52⟩ := by
  obtain ⟨hlog, hval⟩ := canonical_ofNat hn hb
  have hlog53 : n.log2 < 53 := (Nat.log2_lt hn.ne').mpr hb
  have hpos : 0 < n <<< (52 - n.log2) := by
    rw [Nat.shiftLeft_eq]
    positivity
  have hbits := (Nat.log2_eq_iff hpos.ne').mp hlog
  have hc : Canonical (n <<< (52 - n.log2)) ((n.log2 : ℤ) - 52) :=
    ⟨hpos, hbits.2, by omega, .inl hbits.1⟩
  rw [ofNat_eq_finite hc (by omega) hval]
  exact decode?_finite false hc (by omega)

theorem value?_ofNat {n : ℕ} (hb : n < 2 ^ 53) : value? (Float.ofNat n) = some ((n : ℤ) : ℚ) := by
  rcases Nat.eq_zero_or_pos n with rfl | hn
  · decide +kernel
  · rw [value?, decode?_ofNat hn hb, Option.map_some, Exact.value, Exact.magnitude,
      Int.cast_natCast, (canonical_ofNat hn hb).2]
    rfl

theorem beq_comm (x y : Float) : (x == y) = (y == x) :=
  Rounding.beq_comm x.toModel.unpack y.toModel.unpack

end Number

/-! ### Values -/

theorem Function.same_comm {α : Type} (f g : Function α) : f.same g = g.same f := by
  cases f <;> cases g <;> simp only [Function.same, Bool.beq_comm]

namespace Value

mutual

theorem equal_comm (v w : Value) : v.equal w = w.equal v := by
  cases v with
  | bool a => cases w with
    | bool b => exact Bool.beq_comm
    | _ => rfl
  | number x => cases w with
    | number y => exact Number.beq_comm x y
    | _ => rfl
  | string s => cases w with
    | string t => exact Bool.beq_comm
    | _ => rfl
  | array as => cases w with
    | array bs => exact equalItems_comm as bs
    | _ => rfl
  | object as => cases w with
    | object bs => exact equalFields_comm as bs
    | _ => rfl
  | function f => cases w with
    | function g => exact f.same_comm g
    | _ => rfl
  | _ => cases w <;> rfl

theorem equalItems_comm : (as bs : List Value) → equalItems as bs = equalItems bs as
  | [], [] => rfl
  | [], _ :: _ => rfl
  | _ :: _, [] => rfl
  | a :: as, b :: bs => by
    rw [equalItems, equalItems, equal_comm a b, equalItems_comm as bs]

theorem equalFields_comm : (as bs : List (String × Value)) → equalFields as bs = equalFields bs as
  | [], [] => rfl
  | [], _ :: _ => rfl
  | _ :: _, [] => rfl
  | (k, a) :: as, (l, b) :: bs => by
    rw [equalFields, equalFields, equal_comm a b, equalFields_comm as bs, Bool.beq_comm]

end

/-- No natural number is the negative zero. -/
theorem normalise_ofNat (n : ℕ) : (number (Float.ofNat n)).normalise = number (Float.ofNat n) := by
  rw [normalise]
  split
  · next h => rw [Number.eq_zero_of_beq h (Number.signBit_ofScientific n false 0)]
  · rfl

end Value

/-! ### Parts -/

/-- The items of an array, the characters of a string. -/
def Value.parts? : Value → Option (List Value)
  | .array items => some items
  | .string s => some (s.toList.map fun c => .string (.ofList [c]))
  | _ => none

/-- The part at a place, undefined where there is none. -/
def partAt (parts : List Value) (place : ℤ) : Value :=
  if 0 ≤ place then (parts[place.toNat]?).getD .undefined else .undefined

variable {parts : List Value} {s : Value} {x : Float} {q : ℚ}

theorem partAt_of_neg {place : ℤ} (h : place < 0) : partAt parts place = .undefined :=
  if_neg (not_le.mpr h)

theorem partAt_natCast (parts : List Value) (i : ℕ) :
    partAt parts i = (parts[i]?).getD .undefined := by
  rw [partAt, if_pos (Int.natCast_nonneg i), Int.toNat_natCast]

/-- The index operator reads the part at the integer part of the index, as 32 bits have it. -/
theorem itemAt_eq (hs : s.parts? = some parts) (hx : Number.value? x = some q) :
    Operation.itemAt [s, .number x] = partAt parts ((truncate q).bmod (2 ^ 32)) := by
  have hindex : Number.toInt32 (Value.number x).toNumber = (truncate q).bmod (2 ^ 32) :=
    Number.toInt32_eq hx
  have harg : Operation.arg [s, .number x] 1 = .number x := rfl
  unfold Operation.itemAt
  rw [harg, hindex]
  generalize (truncate q).bmod (2 ^ 32) = place
  rcases lt_or_ge place 0 with hneg | hpos
  · rw [partAt_of_neg hneg]
    cases s with
    | array items => exact if_pos hneg
    | string t => exact if_pos hneg
    | _ => cases hs
  · rw [partAt, if_pos hpos]
    cases s with
    | array items =>
      cases hs
      exact if_neg (not_lt.mpr hpos)
    | string t =>
      cases hs
      refine (if_neg (not_lt.mpr hpos)).trans ?_
      rw [List.getElem?_map]
      cases t.toList[place.toNat]? <;> rfl
    | _ => cases hs

end Formula

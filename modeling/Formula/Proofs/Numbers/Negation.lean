import Formula.Proofs.Numbers.Signs

/-!
# Negative numbers

A finite number is a zero, a number without a sign, or the opposite of one. The text of a negative
number is a minus before the text of its opposite, whose opposite is the number again.
-/

namespace Formula.Rounding

open Float.Model Float.Model.UnpackedFloat

variable {M : ℕ} {E : ℤ}

theorem neg_signOf (negative : Bool) : -signOf negative = signOf !negative := by
  cases negative <;> rfl

theorem neg_finite (negative : Bool) (hc : Canonical M E) (hE : E ≤ 971) :
    -finite negative M E hc.pos = finite (!negative) M E hc.pos := by
  change Float.ofModel (.pack (finite negative M E hc.pos).toModel.unpack.neg) = _
  rw [finite_unpack negative hc hE, UnpackedFloat.neg, neg_signOf]
  rfl

theorem finite_beq_self (negative : Bool) (hc : Canonical M E) (hE : E ≤ 971) :
    (finite negative M E hc.pos == finite negative M E hc.pos) = true := by
  change UnpackedFloat.beq (finite negative M E hc.pos).toModel.unpack
    (finite negative M E hc.pos).toModel.unpack = true
  rw [finite_unpack negative hc hE]
  cases negative <;> simp [UnpackedFloat.beq, UnpackedFloat.compare, signOf]

theorem finite_beq_zero (negative : Bool) (hc : Canonical M E) (hE : E ≤ 971) :
    (finite negative M E hc.pos == 0.0) = false := by
  have hzero : (0.0 : Float).toModel.unpack = .zero .positive := by rfl
  change UnpackedFloat.beq (finite negative M E hc.pos).toModel.unpack
    (0.0 : Float).toModel.unpack = false
  rw [finite_unpack negative hc hE, hzero]
  cases negative <;> rfl

theorem finite_neg (hc : Canonical M E) (hE : E ≤ 971) : finite true M E hc.pos < 0.0 := by
  have hzero : (0.0 : Float).toModel.unpack = .zero .positive := by rfl
  refine decide_eq_true (?_ : (finite true M E hc.pos).toModel.unpack.lt
    (0.0 : Float).toModel.unpack = true)
  rw [finite_unpack true hc hE, hzero]
  rfl

end Formula.Rounding

namespace Formula.Number

open Rounding

variable {x : Float} {M : ℕ} {E : ℤ} {negative : Bool}

/-- A finite number without a mantissa is a zero. -/
theorem zero_parts (h : decode? x = some ⟨negative, 0, E⟩) :
    text x = text 0.0 ∧ (0.0 == x) = true := by
  rw [eq_zero h]
  cases negative <;> decide

theorem beq_self (h : decode? x = some ⟨negative, M, E⟩) (hM : M ≠ 0) : (x == x) = true := by
  obtain ⟨hc, hE, rfl⟩ := eq_finite h hM
  exact finite_beq_self negative hc hE

theorem beq_zero (h : decode? x = some ⟨negative, M, E⟩) (hM : M ≠ 0) : (x == 0.0) = false := by
  obtain ⟨hc, hE, rfl⟩ := eq_finite h hM
  exact finite_beq_zero negative hc hE

/-- A negative number is below zero; its opposite has no sign, and the number as its opposite. -/
theorem negative_parts (h : decode? x = some ⟨true, M, E⟩) (hM : M ≠ 0) :
    x < 0.0 ∧ Unsigned (-x) ∧ (text x).toList = '-' :: (text (-x)).toList ∧ -(-x) = x := by
  obtain ⟨hc, hE, rfl⟩ := eq_finite h hM
  have hopposite := decode?_finite false hc hE
  rw [neg_finite true hc hE, Bool.not_true]
  refine ⟨finite_neg hc hE, ⟨M, E, hopposite⟩, ?_, neg_finite false hc hE⟩
  unfold text
  rw [h, hopposite]
  simp only [if_neg hM, if_true, Bool.false_eq_true, if_false, String.toList_ofList]
  rfl

end Formula.Number

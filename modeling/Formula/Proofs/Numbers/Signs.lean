import Formula.Proofs.Numbers.Layout

/-!
# Numbers without a sign

The sums, products and quotients of numbers without a sign have none either, and so has every
number that a numeral or a digit string denotes. A finite number without a sign is not below zero.
-/

namespace Formula.Rounding

open Float.Model Float.Model.UnpackedFloat

/-! ### Unpacked numbers -/

/-- No number, or one without a sign. -/
def Signless : UnpackedFloat → Prop
  | .notANumber => True
  | .infinity s | .zero s | .finite s _ _ _ => s = .positive

variable {u v : UnpackedFloat}

theorem signless_roundWithAccuracy (m : ℕ) (e : ℤ) (a : Accuracy) :
    Signless (roundWithAccuracy Format.binary64 .positive m e a) := by
  unfold roundWithAccuracy
  dsimp only
  split <;> rfl

theorem Signless.mul (hu : Signless u) (hv : Signless v) :
    Signless (UnpackedFloat.mul Format.binary64 u v) := by
  cases u <;> cases v <;> simp only [Signless] at hu hv <;> subst_vars <;>
    first | rfl | trivial | exact signless_roundWithAccuracy _ _ _

theorem Signless.div (hu : Signless u) (hv : Signless v) :
    Signless (UnpackedFloat.div Format.binary64 u v) := by
  cases u <;> cases v <;> simp only [Signless] at hu hv <;> subst_vars <;>
    first | rfl | trivial | exact signless_roundWithAccuracy _ _ _

theorem signless_normalize {m : ℤ} (hm : 0 ≤ m) (e : ℤ) :
    Signless (UnpackedFloat.normalize Format.binary64 m e .positive) := by
  unfold UnpackedFloat.normalize
  split
  · next h => exact absurd (Int.compare_eq_lt.mp h) (by omega)
  · rfl
  · exact signless_roundWithAccuracy _ _ _

theorem Signless.add (hu : Signless u) (hv : Signless v) :
    Signless (UnpackedFloat.add Format.binary64 u v) := by
  cases u <;> cases v <;> simp only [Signless] at hu hv <;> subst_vars <;>
    first | rfl | trivial | skip
  exact signless_normalize (Int.add_nonneg (Int.natCast_nonneg _) (Int.natCast_nonneg _)) _

theorem signless_ofScientific (m : ℕ) (e : ℤ) :
    Signless (UnpackedFloat.ofScientific Format.binary64 m e) := by
  have hfinite : ∀ m e h, Signless (.finite .positive m e h) := fun _ _ _ => rfl
  unfold UnpackedFloat.ofScientific
  split
  · rfl
  · split
    · rfl
    · split
      · rfl
      · split
        · exact (hfinite _ _ _).mul (hfinite _ _ _)
        · exact (hfinite _ _ _).div (hfinite _ _ _)

/-! ### Bits -/

theorem signless_unpack {x : Float} (h : Number.signBit x = false) : Signless x.toModel.unpack := by
  have hbits : x.toBits.toNat < 2 ^ 63 := by
    simp only [Number.signBit, beq_eq_false_iff_ne, ne_eq, ← UInt64.toNat_inj,
      UInt64.toNat_shiftRight, Nat.shiftRight_eq_div_pow] at h
    change ¬ x.toBits.toNat / 2 ^ 63 = 1 at h
    have := x.toBits.toNat_lt
    omega
  have hsign : Sign.ofBitVec (@unpackSign Format.binary64 x.toModel.toBits.toBitVec) =
      .positive := by
    have hzero : @unpackSign Format.binary64 x.toModel.toBits.toBitVec = 0#1 := by
      apply BitVec.eq_of_toNat_eq
      change x.toBits.toNat >>> 63 % 2 ^ (63 - 63 + 1) = 0
      rw [Nat.shiftRight_eq_div_pow]
      omega
    rw [hzero]
    rfl
  change Signless (UnpackedFloat.unpack Format.binary64 x.toModel.toBits.toBitVec)
  unfold UnpackedFloat.unpack
  dsimp only
  rw [hsign]
  repeat' split
  all_goals first | rfl | trivial

theorem signBit_eq_false {x : Float} (h : x.toBits.toNat < 2 ^ 63) : Number.signBit x = false := by
  simp only [Number.signBit, beq_eq_false_iff_ne, ne_eq, ← UInt64.toNat_inj,
    UInt64.toNat_shiftRight, Nat.shiftRight_eq_div_pow]
  change ¬ x.toBits.toNat / 2 ^ 63 = 1
  omega

theorem signBit_pack (h : Signless u) : Number.signBit (.ofModel (.pack u)) = false := by
  refine signBit_eq_false ?_
  change (UnpackedFloat.pack Format.binary64 u).toNat < 2 ^ 63
  have hcomponents : ∀ (e : BitVec 11) (m : BitVec 52),
      (packComponents Format.binary64 .positive e m).toNat < 2 ^ 63 := fun e m => by
    have he := e.isLt
    have hm := m.isLt
    have hbits := packComponents_toNat false e m
    rw [if_neg Bool.false_ne_true] at hbits
    exact hbits ▸ (by omega)
  cases u with
  | notANumber => exact hcomponents _ _
  | infinity s =>
    obtain rfl : s = .positive := h
    exact hcomponents _ _
  | zero s =>
    obtain rfl : s = .positive := h
    exact hcomponents _ _
  | finite s m e hm =>
    obtain rfl : s = .positive := h
    unfold UnpackedFloat.pack
    dsimp only
    split
    · exact hcomponents _ _
    · split <;> exact hcomponents _ _

end Formula.Rounding

namespace Formula.Number

open Rounding Float.Model

variable {x y : Float}

theorem signBit_mul (hx : signBit x = false) (hy : signBit y = false) :
    signBit (x * y) = false :=
  signBit_pack ((signless_unpack hx).mul (signless_unpack hy))

theorem signBit_div (hx : signBit x = false) (hy : signBit y = false) :
    signBit (x / y) = false :=
  signBit_pack ((signless_unpack hx).div (signless_unpack hy))

theorem signBit_add (hx : signBit x = false) (hy : signBit y = false) :
    signBit (x + y) = false :=
  signBit_pack ((signless_unpack hx).add (signless_unpack hy))

theorem signBit_ofUInt64 (n : UInt64) : signBit n.toFloat = false :=
  signBit_pack (signless_normalize (Int.natCast_nonneg _) 0)

theorem signBit_powersOfTen {x : Float} (h : x ∈ Float.exactlyRepresentablePowersOfTen) :
    signBit x = false := by
  obtain ⟨k, hk, rfl⟩ := Array.mem_iff_getElem.mp h
  obtain ⟨hlog, -, hL, hbits⟩ := powersOfTen_bits ⟨k, hk⟩
  generalize (10 ^ k <<< 52) >>> (10 ^ k).log2 = P at hlog hbits
  generalize (10 ^ k).log2 = L at hL hbits
  have hP : P < 2 ^ 53 := Nat.lt_log2_self.trans_eq (by rw [hlog])
  refine signBit_eq_false (hbits.trans_lt ?_)
  omega

theorem signBit_ofScientific (m : ℕ) (s : Bool) (e : ℕ) :
    signBit (Float.ofScientific m s e) = false := by
  unfold Float.ofScientific
  split
  · next h =>
    have hpower := signBit_powersOfTen (Array.getElem_mem (Nat.lt_succ_of_le h.2))
    dsimp only
    split
    · exact signBit_div (signBit_ofUInt64 _) hpower
    · exact signBit_mul (signBit_ofUInt64 _) hpower
  · exact signBit_pack (signless_ofScientific _ _)

theorem signBit_toFloat (d : Decimal) : signBit d.toFloat = false := by
  unfold Decimal.toFloat
  split
  · decide
  · split
    · decide
    · split
      · decide
      · exact signBit_ofScientific _ _ _

theorem signBit_ofRadix (radix : ℕ) (digits : List ℕ) : signBit (ofRadix radix digits) = false := by
  unfold ofRadix
  have hstep : ∀ acc : Float, signBit acc = false →
      signBit (digits.foldl (fun acc d => acc * Float.ofNat radix + Float.ofNat d) acc) = false := by
    induction digits with
    | nil => exact fun _ h => h
    | cons d digits ih =>
      exact fun acc h => ih _
        (signBit_add (signBit_mul h (signBit_ofScientific _ _ _)) (signBit_ofScientific _ _ _))
  exact hstep 0.0 (by decide)

/-- A text converts to a number without a sign if it starts with none. -/
theorem signBit_parseChars {c : Char} {rest : List Char} (hblank : Text.isBlank c = false)
    (hsign : c ≠ '-') : signBit (parseChars (c :: rest)) = false := by
  have hreverse : ∀ cs : List Char, ∃ cs', (cs ++ [c]).dropWhile Text.isBlank = cs' ++ [c] := by
    intro cs
    induction cs with
    | nil => exact ⟨[], by simp [hblank]⟩
    | cons d cs ih =>
      rw [List.cons_append, List.dropWhile_cons]
      split
      · exact ih
      · exact ⟨d :: cs, rfl⟩
  obtain ⟨cs', hcs'⟩ := hreverse rest.reverse
  have htrim : Text.trim (c :: rest) = c :: cs'.reverse := by
    unfold Text.trim
    rw [List.dropWhile_cons, hblank]
    simp [hcs']
  have hplain : (splitSign (c :: cs'.reverse)).1 = false := by
    unfold splitSign
    split
    · next heq =>
      cases heq
      exact (hsign rfl).elim
    · rfl
    · rfl
  unfold parseChars
  rw [htrim]
  dsimp only
  split
  · split
    · decide
    · split
      · exact signBit_ofRadix _ _
      · decide
  · split
    · next x hx =>
      rw [hplain, if_neg (by decide)]
      unfold unsigned? at hx
      split at hx
      · cases hx
        decide
      · obtain ⟨n, -, rfl⟩ := Option.map_eq_some_iff.mp hx
        exact signBit_toFloat _
    · decide

/-! ### Finite numbers -/

theorem unsigned_iff : Unsigned x ↔ (decode? x).isSome ∧ signBit x = false := by
  unfold Unsigned decode?
  dsimp only
  split
  · simp
  · split <;> simp

/-- Zero, or a mantissa with an exponent. -/
def IsFinite : UnpackedFloat → Prop
  | .zero _ | .finite _ _ _ _ => True
  | _ => False

theorem unpackExponent_toNat (x : Float) : (@UnpackedFloat.unpackExponent Format.binary64
    x.toModel.toBits.toBitVec).toNat = ((x.toBits >>> 52) &&& 0x7FF).toNat := by
  rw [UInt64.toNat_and, UInt64.toNat_shiftRight, Nat.shiftRight_eq_div_pow]
  change x.toBits.toNat >>> 52 % 2 ^ (62 - 52 + 1) = x.toBits.toNat / 2 ^ 52 &&& (2 ^ 11 - 1)
  rw [Nat.and_two_pow_sub_one_eq_mod, Nat.shiftRight_eq_div_pow]

theorem unpack_finite (h : (decode? x).isSome) : IsFinite x.toModel.unpack := by
  have hfinite : @UnpackedFloat.unpackExponent Format.binary64
      x.toModel.toBits.toBitVec ≠ -1#11 := by
    intro htop
    have hbiased : ((x.toBits >>> 52) &&& 0x7FF).toNat = 0x7FF := by
      rw [← unpackExponent_toNat, htop]
      rfl
    unfold decode? at h
    dsimp only at h
    rw [if_pos hbiased] at h
    cases h
  change IsFinite (UnpackedFloat.unpack Format.binary64 x.toModel.toBits.toBitVec)
  unfold UnpackedFloat.unpack
  dsimp only
  rw [if_neg hfinite]
  split
  · split <;> trivial
  · trivial

theorem Unsigned.not_isNaN (h : Unsigned x) : x.isNaN = false := by
  have hfinite := unpack_finite (unsigned_iff.mp h).1
  change x.toModel.unpack.isNaN = false
  cases hu : x.toModel.unpack with
  | notANumber =>
    rw [hu] at hfinite
    exact hfinite.elim
  | _ => rfl

theorem Unsigned.not_neg (h : Unsigned x) : ¬ x < 0.0 := by
  have hfinite := unpack_finite (unsigned_iff.mp h).1
  have hsign := signless_unpack (unsigned_iff.mp h).2
  have hzero : (0.0 : Float).toModel.unpack = .zero .positive := by rfl
  intro hless
  have hlt : x.toModel.unpack.lt (0.0 : Float).toModel.unpack = true := of_decide_eq_true hless
  rw [hzero] at hlt
  cases hu : x.toModel.unpack <;> rw [hu] at hfinite hsign hlt
  · exact hfinite
  · exact hfinite
  · cases hlt
  · cases hsign
    cases hlt

end Formula.Number

import Mathlib
import OperatingPoint.Proofs.SteppedStrategies
import OperatingPoint.Scalar.Machine

/-!
# Machine numbers that nothing is added to

What a continuation relies on at the end of its way holds of the machine numbers.  A difference of
equals is a zero, unless it is undefined; a zero that is added changes a sign at most, and that of a
zero only; and one is neutral.

A machine number is a word, and its operations take the word apart, calculate, round and put the
result together again.  `Machine.Reads` says how a word and what it stands for belong together, case
by case; that a number is found again after nothing was done to it follows from that.
-/

set_option autoImplicit false

namespace OperatingPoint

namespace Machine

open Float.Model (Format UnpackedFloat)
open Float.Model.UnpackedFloat (Sign packComponents)

/-! ## Words -/

/-- A word, and what it stands for. -/
inductive Reads : BitVec 64 → UnpackedFloat → Prop
  | notANumber : Reads (UnpackedFloat.packedNaN .binary64) .notANumber
  | infinity (s : Sign) : Reads (packComponents .binary64 s (-1#11) 0#52) (.infinity s)
  | zero (s : Sign) : Reads (packComponents .binary64 s 0#11 0#52) (.zero s)
  | subnormal (s : Sign) (m : BitVec 52) (h : 0 < m.toNat) :
    Reads (packComponents .binary64 s 0#11 m) (.finite s m.toNat (-1074) h)
  | normal (s : Sign) (e : BitVec 11) (m : BitVec 52) (above : 0 < e.toNat)
    (below : e.toNat < 2047) (h : 0 < (1#1 ++ m).toNat) :
    Reads (packComponents .binary64 s e m) (.finite s (1#1 ++ m).toNat (e.toNat - 1075) h)

theorem toBitVec_ofBitVec (b : BitVec 1) : (Sign.ofBitVec b).toBitVec = b := by
  revert b
  decide

theorem toNat_lead (m : BitVec 52) : (1#1 ++ m).toNat = 2 ^ 52 + m.toNat := by
  rw [BitVec.toNat_append, show (1#1).toNat <<< 52 = 2 ^ 52 * 1 from rfl,
    ← Nat.two_pow_add_eq_or_of_lt m.isLt, Nat.mul_one]

theorem log2_lead (m : BitVec 52) : (2 ^ 52 + m.toNat).log2 = 52 := by
  rw [Nat.log2_eq_iff (by omega)]
  have bound := m.isLt
  omega

/-- The fields of a word make up the word. -/
theorem fields_eq (b : BitVec 64) :
    packComponents .binary64 (Sign.ofBitVec (@UnpackedFloat.unpackSign .binary64 b))
      (@UnpackedFloat.unpackExponent .binary64 b)
      (@UnpackedFloat.unpackMantissa .binary64 b) = b := by
  rw [packComponents, toBitVec_ofBitVec]
  refine BitVec.eq_of_getLsbD_eq fun i h ↦ ?_
  have h : i < 64 := h
  rw [BitVec.getLsbD_append, BitVec.getLsbD_append]
  simp only [UnpackedFloat.unpackSign, UnpackedFloat.unpackExponent,
    UnpackedFloat.unpackMantissa, BitVec.getLsbD_cast, BitVec.getLsbD_extractLsb]
  split
  · rw [decide_eq_true (by omega), Bool.true_and, Nat.zero_add]
  · split
    · rw [decide_eq_true (by omega), Bool.true_and, show 52 + (i - 52) = i by omega]
    · rw [decide_eq_true (by omega), Bool.true_and, show 52 + 11 + (i - 52 - 11) = i by omega]

/-- What the word of a number stands for. -/
theorem reads_unpack {b : BitVec 64} (valid : Format.binary64.Valid b) :
    Reads b (UnpackedFloat.unpack .binary64 b) := by
  have fields := fields_eq b
  let s := Sign.ofBitVec (@UnpackedFloat.unpackSign .binary64 b)
  let e := @UnpackedFloat.unpackExponent .binary64 b
  let m := @UnpackedFloat.unpackMantissa .binary64 b
  unfold UnpackedFloat.unpack
  dsimp only
  split
  · rename_i top
    split
    · rename_i empty
      rw [top, empty] at fields
      have reads := Reads.infinity s
      rw [fields] at reads
      exact reads
    · rename_i payload
      rw [valid.eq_packedNaN top payload]
      exact .notANumber
  · rename_i top
    split
    · rename_i bottom
      rw [bottom] at fields
      split
      · rename_i empty
        rw [empty] at fields
        have reads := Reads.zero s
        rw [fields] at reads
        exact reads
      · rename_i payload
        have positive : 0 < m.toNat :=
          (BitVec.toNat_pos m).2 ((BitVec.pos_iff_ne_zero m).2 payload)
        have reads := Reads.subnormal s m positive
        rw [fields] at reads
        rw [bottom]
        exact reads
    · rename_i bottom
      have above : 0 < e.toNat := (BitVec.toNat_pos e).2 ((BitVec.pos_iff_ne_zero e).2 bottom)
      have below : e.toNat < 2047 := by
        have bound : e.toNat < 2048 := e.isLt
        have other : e.toNat ≠ 2047 := fun same ↦ top (BitVec.eq_of_toNat_eq same)
        omega
      have reads := Reads.normal s e m above below (by rw [toNat_lead]; omega)
      rw [fields] at reads
      exact reads

/-- What a word stands for is put together to that word. -/
theorem Reads.pack_eq {b : BitVec 64} {u : UnpackedFloat} (reads : Reads b u) :
    UnpackedFloat.pack .binary64 u = b := by
  cases reads with
  | notANumber => rfl
  | infinity s => rfl
  | zero s => rfl
  | subnormal s m h =>
    have log : m.toNat.log2 < 52 := (Nat.log2_lt (Nat.pos_iff_ne_zero.1 h)).2 m.isLt
    have short : ¬ m.toNat.log2 + 1 = Format.binary64.mantissaBits := by
      show ¬ m.toNat.log2 + 1 = 53
      omega
    unfold UnpackedFloat.pack
    dsimp only
    rw [if_neg (by decide), if_neg short, BitVec.ofNat_toNat, BitVec.setWidth_eq]
  | normal s e m above below h =>
    have biased : ((e.toNat : Int) - 1075 + Format.binary64.exponentBias +
        Format.binary64.mantissaBitsWithoutImplicit).toNat = e.toNat := by
      show ((e.toNat : Int) - 1075 + 1023 + 52).toNat = e.toNat
      omega
    have inside : ¬ 2 ^ Format.binary64.exponentBits ≤ e.toNat + 1 := by
      show ¬ 2048 ≤ e.toNat + 1
      omega
    have rest : BitVec.ofNat 52 (2 ^ 52 + m.toNat) = m := by
      apply BitVec.eq_of_toNat_eq
      rw [BitVec.toNat_ofNat, Nat.add_mod_left, Nat.mod_eq_of_lt m.isLt]
    unfold UnpackedFloat.pack
    dsimp only
    rw [toNat_lead, biased, if_neg inside, if_pos (by rw [log2_lead]; rfl), BitVec.ofNat_toNat,
      BitVec.setWidth_eq, rest]

/-! ## Numbers -/

/-- A number, taken apart and put together again. -/
theorem pack_unpack (f : Float.Model) : Float.Model.pack f.unpack = f := by
  obtain ⟨bits, valid⟩ := f
  have same : UnpackedFloat.pack .binary64 (UnpackedFloat.unpack .binary64 bits.toBitVec) =
      bits.toBitVec := (reads_unpack valid).pack_eq
  simp only [Float.Model.pack, Float.Model.unpack, same]

/-- What a number stands for.  It stands for nothing else. -/
def value (a : Float) : UnpackedFloat := a.toModel.unpack

theorem eq_of_value {a b : Float} (h : value a = value b) : a = b := by
  obtain ⟨a⟩ := a
  obtain ⟨b⟩ := b
  have h : a.unpack = b.unpack := h
  rw [← pack_unpack a, h, pack_unpack]

theorem value_zero : value 0 = .zero .positive := rfl

theorem value_one : value 1 = .finite .positive (2 ^ 52) (-52) (by decide) := rfl

theorem value_notANumber : value (.ofModel (.pack .notANumber)) = .notANumber := rfl

theorem value_signedZero (s : Sign) : value (.ofModel (.pack (.zero s))) = .zero s := by
  cases s <;> rfl

theorem add_eq (a b : Float) :
    a + b = .ofModel (.pack (.add .binary64 (value a) (value b))) := rfl

theorem sub_eq (a b : Float) :
    a - b = .ofModel (.pack (.sub .binary64 (value a) (value b))) := rfl

theorem mul_eq (a b : Float) :
    a * b = .ofModel (.pack (.mul .binary64 (value a) (value b))) := rfl

/-- A number times zero is a zero, if it is finite. -/
theorem value_zero_mul (b : Float) :
    value (0 * b) = .notANumber ∨ ∃ s, value (0 * b) = .zero s := by
  rw [mul_eq, value_zero]
  cases value b with
  | notANumber => exact .inl value_notANumber
  | infinity s => exact .inl value_notANumber
  | zero s => exact .inr ⟨_, value_signedZero _⟩
  | finite s m e h => exact .inr ⟨_, value_signedZero _⟩

/-- A zero that is added changes the sign of a zero at most. -/
theorem add_of_zero {z : Float} {s : Sign} (zero : value z = .zero s) (a : Float) :
    a + z = a ∨ ∃ s₁ s₂, value a = .zero s₁ ∧ value (a + z) = .zero s₂ := by
  have sum := add_eq a z
  rw [zero] at sum
  have same : UnpackedFloat.add .binary64 (value a) (.zero s) = value a → a + z = a := by
    intro same
    rw [sum, same, value, pack_unpack]
  cases there : value a with
  | notANumber =>
    rw [there] at same
    exact .inl (same rfl)
  | infinity s₁ =>
    rw [there] at same
    exact .inl (same rfl)
  | finite s₁ m e h =>
    rw [there] at same
    exact .inl (same rfl)
  | zero s₁ =>
    refine .inr ⟨s₁, ?_⟩
    rw [sum, there, UnpackedFloat.add]
    split
    · exact ⟨_, rfl, value_signedZero _⟩
    · exact ⟨_, rfl, value_signedZero _⟩

theorem value_add_notANumber {z : Float} (undefined : value z = .notANumber) (a : Float) :
    value (a + z) = .notANumber := by
  rw [add_eq, undefined]
  cases value a <;> exact value_notANumber

theorem absorb (a b : Float) (finite : Scalar.isFinite (a + 0 * b) = true) :
    Scalar.isFinite a = true ∧ Scalar.abs (a + 0 * b) = Scalar.abs a := by
  rcases value_zero_mul b with undefined | ⟨s, zero⟩
  · have finite : (value (a + 0 * b)).isFinite = true := finite
    rw [value_add_notANumber undefined] at finite
    cases finite
  · rcases add_of_zero zero a with same | ⟨s₁, s₂, before, after⟩
    · rw [same] at finite ⊢
      exact ⟨finite, rfl⟩
    · refine ⟨?_, ?_⟩
      · show (value a).isFinite = true
        rw [before]
        rfl
      · show Float.ofModel (.pack (value (a + 0 * b)).abs) = .ofModel (.pack (value a).abs)
        rw [before, after]
        rfl

/-- A difference of equals is a zero, if it is a number. -/
theorem cancel (a : Float) : Scalar.isUndefined (a - a + 0) = true ∨ a - a + 0 = 0 := by
  have difference : value (a - a) = .notANumber ∨ a - a = 0 := by
    rw [sub_eq]
    cases value a with
    | notANumber => exact .inl value_notANumber
    | infinity s =>
      refine .inl ?_
      cases s <;> exact value_notANumber
    | zero s =>
      refine .inr ?_
      cases s <;> rfl
    | finite s m e h =>
      refine .inr ?_
      rw [UnpackedFloat.sub]
      dsimp only
      rw [Int.sub_self]
      rfl
  rcases difference with undefined | zero
  · have sum : value (a - a + 0) = .notANumber := by
      rw [add_eq, undefined]
      rfl
    refine .inl ?_
    show (value (a - a + 0)).isNaN = true
    rw [sum]
    rfl
  · rw [zero]
    exact .inr rfl

/-! ## Equal numbers -/

theorem eq_or_zeros_of_compare {u v : UnpackedFloat} (h : u.compare v = some .eq) :
    u = v ∨ ∃ s s', u = .zero s ∧ v = .zero s' := by
  cases u with
  | notANumber => cases h
  | infinity s =>
    cases v with
    | infinity s' => cases s <;> cases s' <;> first | exact .inl rfl | cases h
    | notANumber | zero | finite => cases s <;> cases h
  | zero s =>
    cases v with
    | zero s' => exact .inr ⟨s, s', rfl, rfl⟩
    | notANumber => cases h
    | infinity s' | finite s' => cases s' <;> cases h
  | finite s m e positive =>
    cases v with
    | notANumber => cases h
    | infinity s' => cases s' <;> cases s <;> cases h
    | zero s' => cases s <;> cases h
    | finite s' m' e' positive' =>
      have parts : s = s' ∧ (compare e e').then (compare m m') = .eq := by
        cases s <;> cases s' <;> first | cases h | refine ⟨rfl, ?_⟩
        · exact Ordering.swap_eq_eq.1 (Option.some.inj h)
        · exact Option.some.inj h
      obtain ⟨rfl, same⟩ := parts
      obtain ⟨exponents, mantissas⟩ := Ordering.then_eq_eq.1 same
      obtain rfl := Std.compare_eq_iff_eq.1 exponents
      obtain rfl := Std.compare_eq_iff_eq.1 mantissas
      exact .inl rfl

/-- Equal numbers are the same, but for the sign of a zero. -/
theorem eq_or_zeros_of_beq {a b : Float} (h : (a == b) = true) :
    a = b ∨ ∃ s s', value a = .zero s ∧ value b = .zero s' := by
  have h : (UnpackedFloat.compare (value a) (value b) == some .eq) = true := h
  exact (eq_or_zeros_of_compare (beq_iff_eq.1 h)).imp_left eq_of_value

theorem beq_zero {a : Float} {s : Sign} (h : value a = .zero s) {b : Float} {s' : Sign}
    (h' : value b = .zero s') : (a == b) = true := by
  show (UnpackedFloat.compare (value a) (value b) == some .eq) = true
  rw [h, h']
  rfl

/-- A number that is equal to one other than zero is that number. -/
theorem eq_of_beq {a b : Float} (h : (a == b) = true) (other : (b == 0) = false) : a = b := by
  rcases eq_or_zeros_of_beq h with same | ⟨s, s', -, zero⟩
  · exact same
  · rw [beq_zero zero value_zero] at other
    cases other

theorem beq_trans {a b c : Float} (h : (a == b) = true) (h' : (b == c) = true) :
    (a == c) = true := by
  rcases eq_or_zeros_of_beq h with rfl | ⟨s, s', zero, zero'⟩
  · exact h'
  · rcases eq_or_zeros_of_beq h' with rfl | ⟨_, _, _, zero''⟩
    · exact beq_zero zero zero'
    · exact beq_zero zero zero''

/-! ## One -/

open Float.Model (totalExponent)

theorem targetExponent_eq (t : Int) :
    Format.binary64.targetExponent t = max (t - 53) (-1074) := rfl

/-- What a word stands for has the exponent that a number of its size is rounded to. -/
theorem Reads.targetExponent_eq {b : BitVec 64} {s : Sign} {m : Nat} {e : Int} {h : 0 < m}
    (reads : Reads b (.finite s m e h)) :
    Format.binary64.targetExponent (totalExponent m e) = e := by
  rw [Machine.targetExponent_eq, totalExponent]
  cases reads with
  | subnormal s m h =>
    have log : m.toNat.log2 < 52 := (Nat.log2_lt (Nat.pos_iff_ne_zero.1 h)).2 m.isLt
    omega
  | normal s e m above below h =>
    have log : (2 ^ 52 + m.toNat).log2 = 52 := log2_lead m
    rw [toNat_lead, log]
    omega

open Float.Model.UnpackedFloat (ExtendedMantissa)

theorem shiftRight_exact (k m : Nat) :
    (⟨2 ^ k * m, false, false⟩ : ExtendedMantissa) >>> k = ⟨m, false, false⟩ := by
  induction k generalizing m with
  | zero =>
    rw [Nat.pow_zero, Nat.one_mul]
    rfl
  | succ k ih =>
    have shifted : (⟨2 ^ (k + 1) * m, false, false⟩ : ExtendedMantissa) >>> k =
        ⟨2 * m, false, false⟩ := by
      rw [Nat.pow_succ, Nat.mul_assoc]
      exact ih (2 * m)
    show ExtendedMantissa.shiftRightOne ((⟨_, _, _⟩ : ExtendedMantissa) >>> k) = _
    rw [shifted, ExtendedMantissa.shiftRightOne]
    simp

theorem log2_pow_mul {m : Nat} (k : Nat) (h : 0 < m) : (2 ^ k * m).log2 = k + m.log2 := by
  have positive : 0 < 2 ^ k := Nat.two_pow_pos k
  have bounds := (Nat.log2_eq_iff (Nat.pos_iff_ne_zero.1 h)).1 (rfl : m.log2 = m.log2)
  rw [Nat.log2_eq_iff (Nat.pos_iff_ne_zero.1 (Nat.mul_pos positive h)), Nat.add_assoc, Nat.pow_add,
    Nat.pow_add]
  exact ⟨Nat.mul_le_mul_left _ bounds.1, Nat.mul_lt_mul_of_pos_left bounds.2 positive⟩

/-- Zeros behind a number that has the exponent it is rounded to are dropped again. -/
theorem shift_exact {m : Nat} {e : Int} (k : Nat) (h : 0 < m)
    (target : Format.binary64.targetExponent (totalExponent m e) = e) :
    UnpackedFloat.shiftToTargetExponent .binary64 (2 ^ k * m) (e - k) .exact =
      (⟨m, false, false⟩, e) := by
  have total : totalExponent (2 ^ k * m) (e - k) = totalExponent m e := by
    unfold totalExponent
    rw [log2_pow_mul k h]
    omega
  have amount : (e - (e - k)).toNat = k := by omega
  have back : e - k + k = e := by omega
  unfold UnpackedFloat.shiftToTargetExponent UnpackedFloat.shiftToExponent
  rw [total, target]
  dsimp only
  rw [amount, back]
  exact congrArg (·, e) (shiftRight_exact k m)

theorem round_exact {s : Sign} {m : Nat} {e : Int} (k : Nat) (h : 0 < m)
    (target : Format.binary64.targetExponent (totalExponent m e) = e) :
    UnpackedFloat.roundWithAccuracy .binary64 s (2 ^ k * m) (e - k) .exact = .finite s m e h := by
  have still := shift_exact 0 h target
  rw [Nat.pow_zero, Nat.one_mul, Int.natCast_zero, Int.sub_zero] at still
  unfold UnpackedFloat.roundWithAccuracy
  rw [shift_exact k h target]
  dsimp only
  rw [show ExtendedMantissa.roundedMantissa ⟨m, false, false⟩ = m from rfl, still]
  exact dif_neg (Nat.pos_iff_ne_zero.1 h)

theorem one_mul (a : Float) : 1 * a = a := by
  have product : 1 * a = .ofModel (.pack (.mul .binary64 (value 1) (value a))) := mul_eq 1 a
  have same : UnpackedFloat.mul .binary64 (value 1) (value a) = value a → 1 * a = a := by
    intro same
    rw [product, same, value, pack_unpack]
  refine same ?_
  rw [value_one]
  have reads : Reads a.toModel.toBits.toBitVec (value a) := reads_unpack a.toModel.valid
  cases there : value a with
  | notANumber => rfl
  | infinity s => cases s <;> rfl
  | zero s => cases s <;> rfl
  | finite s m e h =>
    rw [there] at reads
    have sign : Sign.positive * s = s := by cases s <;> rfl
    rw [UnpackedFloat.mul, sign, Int.add_comm]
    exact round_exact 52 h reads.targetExponent_eq

end Machine

/-! ## Strategies on machine numbers -/

/-- The machine numbers are as a continuation relies on them to be. -/
theorem Scalar.zeroLaws_machine : Scalar.ZeroLaws Float where
  beq_trans := Machine.beq_trans
  eq_one h := Machine.eq_of_beq h rfl
  cancel := Machine.cancel
  absorb := Machine.absorb
  one_mul := Machine.one_mul
  one_sub_one := rfl
  not_one_lt_zero := by decide

namespace Drive

variable {δ : Type} [Device δ Float] {layer : δ} {n : Nat} {c : Communicator Float}
  {options : ModeOptions Float} {ctx : ContinuationContext Float}

/-- A sweep of conductances that leaves none, and that does not end at a conductance of one, whose
logarithm may have a sign. -/
theorem clears_gmin (reports : c.Reports)
    (other : (options.continuation.gmin.stop == 0) = false)
    (none_left : options.continuation.gmin.residualConductance = 0)
    (tied : ctx.voltage.Tied layer n) : Clears layer n c options ctx .gminStepping := by
  refine ⟨Scalar.zeroLaws_machine, reports, fun v there ↦ ?_, none_left, tied⟩
  rw [Machine.eq_of_beq there other]

/-- A homotopy that ends at the device equations. -/
theorem clears_homotopy (reports : c.Reports)
    (name : options.continuation.homotopy.name = Parameters.blendName)
    (one : ctx.endOf options.continuation.homotopy = .ok 1) :
    Clears layer n c options ctx .artificialHomotopy :=
  ⟨Scalar.zeroLaws_machine, reports, name, one⟩

end Drive

end OperatingPoint

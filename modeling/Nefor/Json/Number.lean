import Mathlib.Tactic.NormNum
import Mathlib.Tactic.Linarith
import Mathlib.Tactic.Ring
import Mathlib.Tactic.Positivity
import Mathlib.Tactic.GCongr
import Mathlib.Data.Rat.Floor
import Mathlib.Data.Fin.Basic
import Mathlib.Algebra.Order.Field.Power

/-! JSON numbers as a parser keeps them: unsigned and negative 64-bit integers apart from
finite doubles. A double is its three bit fields, so equality of bits is equality. -/
namespace Nefor

/-- A finite IEEE 754 double. The exponent field 2047 of infinities and NaN is left out. -/
structure F64 where
  negative : Bool
  exponent : Fin 2047
  fraction : Fin 4503599627370496
  deriving DecidableEq, Repr

namespace F64

/-- The integer that the fields scale by a power of two. -/
def significand (f : F64) : Nat :=
  if f.exponent.val = 0 then f.fraction else 4503599627370496 + f.fraction

def scale (f : F64) : ℚ :=
  2 ^ ((if f.exponent.val = 0 then 1 else (f.exponent.val : Int)) - 1075)

/-- The value of a double. -/
def toRat (f : F64) : ℚ :=
  if f.negative then -(f.significand * f.scale) else f.significand * f.scale

/-- `a == b`, which does not see the sign of a zero. -/
def eq (a b : F64) : Bool := decide (a.toRat = b.toRat)

def zero : F64 := ⟨false,0,0⟩

/-- `f64::MAX` and `f64::MIN`. -/
def max : F64 := ⟨false,2046,4503599627370495⟩
def min : F64 := ⟨true,2046,4503599627370495⟩

def neg (f : F64) : F64 := { f with negative := !f.negative }

/-- `n / 2 ^ shift`, rounded to the nearest integer and to even on ties. -/
def roundShift (n shift : Nat) : Nat :=
  let q := n / 2 ^ shift
  let r := n % 2 ^ shift
  if 2 ^ shift < 2 * r ∨ 2 * r = 2 ^ shift ∧ q % 2 = 1 then q+1 else q

/-- The nearest double of an integer below `2 ^ 64`. -/
def ofNat (n : Nat) : F64 :=
  if n = 0 then zero
  else
    let e := n.log2
    let m := if e ≤ 52 then n * 2 ^ (52-e) else roundShift n (e-52)
    if m < 9007199254740992
    then ⟨false,Fin.ofNat 2047 (e+1023),Fin.ofNat 4503599627370496 (m-4503599627370496)⟩
    else ⟨false,Fin.ofNat 2047 (e+1024),0⟩

/-- The greatest magnitude of a finite double. -/
def bound : ℚ := 9007199254740991 * 2 ^ (971 : Int)

/-- The bound exceeds every 64-bit integer. -/
theorem le_bound : 18446744073709551616 ≤ bound := by
  have hp : (2 : ℚ) ^ (12 : Int) ≤ 2 ^ (971 : Int) :=
    zpow_le_zpow_right₀ (by norm_num) (by norm_num)
  calc (18446744073709551616 : ℚ) ≤ 9007199254740991 * 2 ^ (12 : Int) := by norm_num
    _ ≤ bound := mul_le_mul_of_nonneg_left hp (by norm_num)

theorem significand_le (f : F64) : f.significand ≤ 9007199254740991 := by
  have hf := f.fraction.isLt
  unfold significand
  split <;> omega

theorem scale_pos (f : F64) : 0 < f.scale := by unfold scale; positivity

theorem scale_le (f : F64) : f.scale ≤ 2 ^ (971 : Int) := by
  have he := f.exponent.isLt
  unfold scale
  apply zpow_le_zpow_right₀ (by norm_num)
  split <;> omega

theorem magnitude_le (f : F64) : f.significand * f.scale ≤ bound := by
  have hs : (f.significand : ℚ) ≤ 9007199254740991 := by exact_mod_cast f.significand_le
  have hp : (0 : ℚ) ≤ f.significand := by positivity
  exact mul_le_mul hs f.scale_le f.scale_pos.le (by norm_num)

theorem magnitude_nonneg (f : F64) : 0 ≤ f.significand * f.scale :=
  mul_nonneg (by positivity) f.scale_pos.le

theorem max_toRat : max.toRat = bound := by
  unfold toRat max bound significand scale
  norm_num

theorem min_toRat : min.toRat = -bound := by
  unfold toRat min bound significand scale
  norm_num

/-- Every finite double lies between `f64::MIN` and `f64::MAX`. -/
theorem toRat_mem (f : F64) : min.toRat ≤ f.toRat ∧ f.toRat ≤ max.toRat := by
  have h := f.magnitude_le
  have h0 := f.magnitude_nonneg
  rw [max_toRat,min_toRat]
  unfold toRat
  split <;> constructor <;> linarith

end F64

/-- A number of a document. `negInt n` stands for `-(n + 1)`. -/
inductive JsonNumber
  | posInt (n : Fin 18446744073709551616)
  | negInt (n : Fin 9223372036854775808)
  | float (f : F64)
  deriving DecidableEq, Repr

namespace JsonNumber

def toRat : JsonNumber → ℚ
  | posInt n => n.val
  | negInt n => -(n.val+1)
  | float f => f.toRat

/-- `as_i64`, which is none for every double. -/
def asI64 : JsonNumber → Option Int64
  | posInt n => if n.val < 9223372036854775808 then some (Int64.ofInt n.val) else none
  | negInt n => some (Int64.ofInt (-(n.val+1)))
  | float _ => none

/-- `as_f64`, which rounds the integers that no double represents. -/
def asF64 : JsonNumber → F64
  | posInt n => F64.ofNat n
  | negInt n => (F64.ofNat (n.val+1)).neg
  | float f => f

/-- `Number::from(i64)`. -/
def ofI64 (i : Int64) : JsonNumber :=
  if i.toInt < 0 then negInt (Fin.ofNat _ (-i.toInt-1).toNat) else posInt (Fin.ofNat _ i.toInt.toNat)

/-- `a == b`: the kind of number matters, and doubles compare as doubles. -/
def eq : JsonNumber → JsonNumber → Bool
  | posInt a, posInt b => a == b
  | negInt a, negInt b => a == b
  | float a, float b => a.eq b
  | _, _ => false

@[simp] theorem asI64_ofI64 (i : Int64) : (ofI64 i).asI64 = some i := by
  have hl := i.le_toInt
  have hu := i.toInt_lt
  unfold ofI64
  split
  · have hn : ((Fin.ofNat 9223372036854775808 (-i.toInt-1).toNat).val : Int) = -i.toInt-1 := by
      simp only [Fin.val_ofNat]; omega
    simp only [asI64,hn]
    congr
    rw [← Int64.ofInt_toInt i]
    congr
    simp
  · have hn : ((Fin.ofNat 18446744073709551616 i.toInt.toNat).val : Int) = i.toInt := by
      simp only [Fin.val_ofNat]; omega
    rw [asI64,if_pos (by omega),hn,Int64.ofInt_toInt]

/-- A number that reads as a 64-bit integer is the one written for it. -/
theorem eq_ofI64 {n : JsonNumber} {i : Int64} (h : n.asI64 = some i) : n = ofI64 i := by
  cases n with
  | float f => cases h
  | posInt n =>
    simp only [asI64] at h
    split at h <;> cases h
    rw [ofI64,Int64.toInt_ofInt_of_le (by omega) (by omega),if_neg (by omega)]
    exact congrArg posInt (Fin.ext (by simp only [Fin.val_ofNat]; omega))
  | negInt n =>
    have hn := n.isLt
    obtain rfl := Option.some.inj h
    rw [ofI64,Int64.toInt_ofInt_of_le (by omega) (by omega),if_pos (by omega)]
    exact congrArg negInt (Fin.ext (by simp only [Fin.val_ofNat]; omega))

/-- Every number lies between `f64::MIN` and `f64::MAX`. -/
theorem toRat_mem (n : JsonNumber) : F64.min.toRat ≤ n.toRat ∧ n.toRat ≤ F64.max.toRat := by
  have hb := F64.le_bound
  cases n with
  | float f => exact f.toRat_mem
  | posInt n =>
    have hn : (n.val : ℚ) ≤ 18446744073709551616 := by exact_mod_cast n.isLt.le
    have h0 : (0 : ℚ) ≤ n.val := by positivity
    rw [F64.min_toRat,F64.max_toRat,toRat]
    exact ⟨(neg_nonpos.mpr (h0.trans (hn.trans hb))).trans h0,hn.trans hb⟩
  | negInt n =>
    have hn : (n.val+1 : ℚ) ≤ 18446744073709551616 := by exact_mod_cast (by omega)
    have h0 : (0 : ℚ) ≤ n.val+1 := by positivity
    rw [F64.min_toRat,F64.max_toRat,toRat]
    exact ⟨neg_le_neg (hn.trans hb),(neg_nonpos.mpr h0).trans (h0.trans (hn.trans hb))⟩

theorem toRat_of_asI64 {n : JsonNumber} {i : Int64} (h : n.asI64 = some i) : n.toRat = i.toInt := by
  cases n with
  | float f => cases h
  | posInt n =>
    simp only [asI64] at h
    split at h <;> cases h
    rw [toRat,Int64.toInt_ofInt_of_le (by omega) (by omega)]
    simp
  | negInt n =>
    have hn := n.isLt
    obtain rfl := Option.some.inj h
    rw [toRat,Int64.toInt_ofInt_of_le (by omega) (by omega)]
    push_cast
    ring

end JsonNumber
end Nefor

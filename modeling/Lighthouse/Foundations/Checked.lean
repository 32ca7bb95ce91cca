import Mathlib.Tactic.Ring

/-! Rust's fixed-width integer operations on `u64` and `i64`, over `Nat` and `Int`: the checked
ones return `none` where the exact result leaves the type's range, the casts reinterpret the
bits as two's complement, and `+=` on `i64` wraps as it does in a release build. -/
namespace Lighthouse.Checked

/-- `u64::checked_add`. -/
def addU64 (a b : Nat) : Option Nat := if a + b < 2 ^ 64 then some (a + b) else none

/-- `u64::checked_sub`. -/
def subU64 (a b : Nat) : Option Nat := if b ≤ a then some (a - b) else none

/-- `u64::checked_mul`. -/
def mulU64 (a b : Nat) : Option Nat := if a * b < 2 ^ 64 then some (a * b) else none

/-- `u64::checked_div`: `none` on a zero divisor. -/
def divU64 (a b : Nat) : Option Nat := if b = 0 then none else some (a / b)

/-- `u64::checked_rem`: `none` on a zero divisor. -/
def remU64 (a b : Nat) : Option Nat := if b = 0 then none else some (a % b)

/-- `u64::MAX`. -/
def maxU64 : Nat := 2 ^ 64 - 1

/-- `u64::saturating_add`; `saturating_sub` is `Nat` subtraction. -/
def saturatingAddU64 (a b : Nat) : Nat := min (a + b) maxU64

/-- `u64::saturating_mul`. -/
def saturatingMulU64 (a b : Nat) : Nat := min (a * b) maxU64

/-- `u8::saturating_add`, for a counter of type `u8`. -/
def saturatingAddU8 (a b : Nat) : Nat := min (a + b) (2 ^ 8 - 1)

/-- `+` on `u64` in a release build. -/
def wrappingAddU64 (a b : Nat) : Nat := (a + b) % 2 ^ 64

/-- `*` on `u64` in a release build. -/
def wrappingMulU64 (a b : Nat) : Nat := (a * b) % 2 ^ 64

/-- `u64::try_from` of a wider unsigned value. -/
def tryIntoU64 (x : Nat) : Option Nat := if x < 2 ^ 64 then some x else none

/-- `x as u64` for a wider unsigned `x`: the low 64 bits. -/
def asU64 (x : Nat) : Nat := x % 2 ^ 64

/-- Whether an integer fits in an `i64`. -/
def InI64 (x : Int) : Prop := -2 ^ 63 ≤ x ∧ x < 2 ^ 63

instance (x : Int) : Decidable (InI64 x) := inferInstanceAs (Decidable (_ ∧ _))

/-- `i64::checked_add`. -/
def addI64 (a b : Int) : Option Int := if InI64 (a + b) then some (a + b) else none

/-- `i64::checked_sub`. -/
def subI64 (a b : Int) : Option Int := if InI64 (a - b) then some (a - b) else none

/-- `+=` on `i64` in a release build: the sum modulo `2^64`, read back as two's complement. -/
def wrappingAddI64 (a b : Int) : Int := (a + b + 2 ^ 63) % 2 ^ 64 - 2 ^ 63

/-- `x as i64` for a `u64` value `x`. -/
def asI64 (x : Nat) : Int := if x < 2 ^ 63 then x else (x : Int) - 2 ^ 64

@[simp] theorem addU64_eq_some {a b c : Nat} : addU64 a b = some c ↔ a + b < 2 ^ 64 ∧ a + b = c := by
  unfold addU64
  split <;> simp_all

@[simp] theorem subU64_eq_some {a b c : Nat} : subU64 a b = some c ↔ b ≤ a ∧ a - b = c := by
  unfold subU64
  split <;> simp_all

@[simp] theorem addI64_eq_some {a b c : Int} : addI64 a b = some c ↔ InI64 (a + b) ∧ a + b = c := by
  unfold addI64
  split <;> simp_all

@[simp] theorem subI64_eq_some {a b c : Int} : subI64 a b = some c ↔ InI64 (a - b) ∧ a - b = c := by
  unfold subI64
  split <;> simp_all

theorem saturatingAddU64_of_le {a b : Nat} (h : a + b ≤ maxU64) : saturatingAddU64 a b = a + b :=
  min_eq_left h

theorem saturatingAddU64_le (a b : Nat) : saturatingAddU64 a b ≤ maxU64 := min_le_right _ _

theorem le_saturatingAddU64 {a : Nat} (b : Nat) (h : a ≤ maxU64) : a ≤ saturatingAddU64 a b :=
  le_min (Nat.le_add_right a b) h

theorem one_le_maxU64 : 1 ≤ maxU64 := by
  unfold maxU64
  norm_num

theorem one_le_saturatingAddU64_one (a : Nat) : 1 ≤ saturatingAddU64 a 1 :=
  le_min (Nat.le_add_left 1 a) one_le_maxU64

theorem asI64_of_lt {x : Nat} (h : x < 2 ^ 63) : asI64 x = x := by
  unfold asI64
  rw [if_pos h]

theorem wrappingAddU64_of_lt {a b : Nat} (h : a + b < 2 ^ 64) : wrappingAddU64 a b = a + b :=
  Nat.mod_eq_of_lt h

theorem wrappingMulU64_of_lt {a b : Nat} (h : a * b < 2 ^ 64) : wrappingMulU64 a b = a * b :=
  Nat.mod_eq_of_lt h

theorem asU64_of_lt {x : Nat} (h : x < 2 ^ 64) : asU64 x = x := Nat.mod_eq_of_lt h

/-- Within range, `+=` is exact. -/
theorem wrappingAddI64_of_inI64 {a b : Int} (h : InI64 (a + b)) : wrappingAddI64 a b = a + b := by
  unfold wrappingAddI64
  obtain ⟨h₁, h₂⟩ := h
  rw [Int.emod_eq_of_lt (by omega) (by omega)]
  ring

end Lighthouse.Checked

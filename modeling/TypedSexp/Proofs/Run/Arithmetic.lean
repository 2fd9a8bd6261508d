import Mathlib.Algebra.Group.Nat.Defs
import TypedSexp.Run.Apply

namespace TypedSexp

namespace Word

theorem toNat_upper (x : UInt64) : (upper x).toNat = x.toNat / 2 ^ 32 := by
  simp [upper, Nat.shiftRight_eq_div_pow]

theorem toNat_lower (x : UInt64) : (lower x).toNat = x.toNat % 2 ^ 32 := by
  have h : (4294967295 : Nat) = 2 ^ 32 - 1 := by decide
  simp only [lower, UInt64.toNat_and]
  exact Nat.and_two_pow_sub_one_eq_mod x.toNat 32

theorem testBit_eq (n : Nat) (h : n < 2 ^ 64) : n.testBit 63 = decide (2 ^ 63 ≤ n) := by
  rw [Nat.testBit_eq_decide_div_mod_eq]
  congr 1
  exact propext (by omega)

theorem shiftRight_eq_zero_iff (x : UInt64) : x >>> 63 = 0 ↔ x.toNat.testBit 63 = false := by
  rw [testBit_eq x.toNat x.toNat_lt, decide_eq_false_iff_not, ← UInt64.toNat_inj]
  simp [Nat.shiftRight_eq_div_pow]

theorem carry_eq_zero_iff (x y : UInt64) : carry x y = 0 ↔ x.toNat + y.toNat < Numeral.limit := by
  have hx := x.toNat_lt
  have hy := y.toNat_lt
  have hsize : UInt64.size = 2 ^ 64 := rfl
  have hsum := Nat.mod_lt (x.toNat + y.toNat) (Nat.two_pow_pos 64)
  rw [carry, shiftRight_eq_zero_iff]
  simp only [UInt64.toNat_or, UInt64.toNat_and, UInt64.toNat_not, UInt64.toNat_add,
    Nat.testBit_or, Nat.testBit_and, hsize]
  rw [testBit_eq _ hx, testBit_eq _ hy, testBit_eq _ (by omega)]
  simp only [Bool.or_eq_false_iff, Bool.and_eq_false_iff, decide_eq_false_iff_not]
  omega

theorem toNat_high (x y : UInt64) : (high x y).toNat = x.toNat * y.toNat / 2 ^ 64 := by
  have hx := x.toNat_lt
  have hy := y.toNat_lt
  obtain ⟨x₁, hx₁⟩ : ∃ n, n = x.toNat / 2 ^ 32 := ⟨_, rfl⟩
  obtain ⟨x₀, hx₀⟩ : ∃ n, n = x.toNat % 2 ^ 32 := ⟨_, rfl⟩
  obtain ⟨y₁, hy₁⟩ : ∃ n, n = y.toNat / 2 ^ 32 := ⟨_, rfl⟩
  obtain ⟨y₀, hy₀⟩ : ∃ n, n = y.toNat % 2 ^ 32 := ⟨_, rfl⟩
  have hproduct {m n : Nat} (hm : m < 2 ^ 32) (hn : n < 2 ^ 32) :
      m * n ≤ (2 ^ 32 - 1) * (2 ^ 32 - 1) := Nat.mul_le_mul (by omega) (by omega)
  have h₁₁ := @hproduct x₁ y₁ (by omega) (by omega)
  have h₁₀ := @hproduct x₁ y₀ (by omega) (by omega)
  have h₀₁ := @hproduct x₀ y₁ (by omega) (by omega)
  have h₀₀ := @hproduct x₀ y₀ (by omega) (by omega)
  have hxy : x.toNat * y.toNat =
      x₁ * y₁ * 2 ^ 64 + (x₁ * y₀ + x₀ * y₁) * 2 ^ 32 + x₀ * y₀ := by
    have hx' : x.toNat = x₁ * 2 ^ 32 + x₀ := by omega
    have hy' : y.toNat = y₁ * 2 ^ 32 + y₀ := by omega
    rw [hx', hy']
    grind
  simp only [high, UInt64.toNat_add, UInt64.toNat_mul, toNat_upper, toNat_lower, ← hx₁, ← hx₀,
    ← hy₁, ← hy₀, hxy]
  omega

theorem high_eq_zero_iff (x y : UInt64) : high x y = 0 ↔ x.toNat * y.toNat < Numeral.limit := by
  rw [← UInt64.toNat_inj, toNat_high]
  exact Nat.div_eq_zero_iff_lt (Nat.two_pow_pos 64)

theorem toNat_truncatedSub (x y : UInt64) :
    (truncatedSub x y).toNat = x.toNat - y.toNat := by
  unfold truncatedSub
  split
  case isTrue h =>
    have hlt : x.toNat < y.toNat := h
    simp only [UInt64.toNat_zero]
    omega
  case isFalse h => exact UInt64.toNat_sub_of_le x y (UInt64.not_lt.mp h)

theorem truncatedSub_eq (x y : UInt64) :
    truncatedSub x y = .ofNat (x.toNat - y.toNat) := by
  rw [← toNat_truncatedSub, UInt64.ofNat_toNat]

end Word

namespace Primitive

theorem bounded_eq (p : Primitive) (a b : UInt64) {spilled result : UInt64} {n : Nat}
    (hspilled : spilled = 0 ↔ n < Numeral.limit) (hresult : result = .ofNat n) :
    p.bounded a b spilled result =
      if n < Numeral.limit then .ok (.num (.ofNat n)) else p.misuse (.overflow a b) := by
  unfold bounded
  rw [hresult]
  split
  case isTrue h => rw [if_pos (hspilled.mp h)]
  case isFalse h => rw [if_neg fun hlt => h (hspilled.mpr hlt)]

theorem bounded_sum (p : Primitive) (a b : UInt64) :
    p.bounded a b (Word.carry a b) (a + b) =
      if a.toNat + b.toNat < Numeral.limit then .ok (.num (.ofNat (a.toNat + b.toNat)))
      else p.misuse (.overflow a b) :=
  p.bounded_eq a b (Word.carry_eq_zero_iff a b) (by simp)

theorem bounded_product (p : Primitive) (a b : UInt64) :
    p.bounded a b (Word.high a b) (a * b) =
      if a.toNat * b.toNat < Numeral.limit then .ok (.num (.ofNat (a.toNat * b.toNat)))
      else p.misuse (.overflow a b) :=
  p.bounded_eq a b (Word.high_eq_zero_iff a b) (by simp)

end Primitive

end TypedSexp

import Mathlib.Data.List.Basic
import Mathlib.Tactic.Common

/-!
# Decimal text in bytes

The digits of a natural number as ASCII codes, and the number that a text of
digits stands for.
-/

namespace FFZKit.Foundations

/-- The byte is one of `'0'` to `'9'`. -/
def isDigitByte (b : UInt8) : Bool := 48 ≤ b && b ≤ 57

/-- The digits of a number. -/
def decimal (n : Nat) : List UInt8 :=
  (Nat.toDigits 10 n).map fun c => UInt8.ofNat c.toNat

/-- The number that a text of digits stands for. -/
def decimalValue (text : List UInt8) : Nat :=
  text.foldl (fun value b => 10 * value + (b.toNat - 48)) 0

theorem decimal_of_lt {n : Nat} (hn : n < 10) : decimal n = [UInt8.ofNat (48 + n)] := by
  have hdigit : ∀ n < 10, UInt8.ofNat n.digitChar.toNat = UInt8.ofNat (48 + n) := by decide
  rw [decimal, Nat.toDigits_of_lt_base hn, List.map_singleton, hdigit n hn]

theorem decimal_of_le {n : Nat} (hn : 10 ≤ n) :
    decimal n = decimal (n / 10) ++ [UInt8.ofNat (48 + n % 10)] := by
  have hlast : decimal (n % 10) = [(n % 10).digitChar].map fun c => UInt8.ofNat c.toNat := by
    rw [decimal, Nat.toDigits_of_lt_base (Nat.mod_lt n (by decide))]
  rw [← decimal_of_lt (Nat.mod_lt n (by decide)), hlast, decimal, decimal,
    Nat.toDigits_of_base_le (by decide) hn, List.map_append]

theorem decimal_ne_nil (n : Nat) : decimal n ≠ [] := by
  rw [decimal, Ne, List.map_eq_nil_iff]
  exact Nat.toDigits_ne_nil

theorem isDigitByte_digit {d : Nat} (hd : d < 10) :
    isDigitByte (UInt8.ofNat (48 + d)) = true ∧ (UInt8.ofNat (48 + d)).toNat - 48 = d := by
  have h : ∀ d < 10, isDigitByte (UInt8.ofNat (48 + d)) = true ∧
      (UInt8.ofNat (48 + d)).toNat - 48 = d := by decide
  exact h d hd

/-- The digits of a number are digits, and stand for it. -/
theorem decimal_spec (n : Nat) :
    (∀ b ∈ decimal n, isDigitByte b = true) ∧ decimalValue (decimal n) = n := by
  induction n using Nat.strongRecOn with
  | ind n ih =>
      by_cases hn : n < 10
      · obtain ⟨hdigit, hvalue⟩ := isDigitByte_digit hn
        rw [decimal_of_lt hn]
        refine ⟨fun b hb => List.mem_singleton.mp hb ▸ hdigit, ?_⟩
        simpa [decimalValue] using hvalue
      · obtain ⟨hfront, hvalue⟩ := ih (n / 10) (by omega)
        obtain ⟨hdigit, hlast⟩ := isDigitByte_digit (Nat.mod_lt n (by decide : 0 < 10))
        rw [decimal_of_le (by omega)]
        constructor
        · intro b hb
          rcases List.mem_append.mp hb with hb | hb
          · exact hfront b hb
          · exact List.mem_singleton.mp hb ▸ hdigit
        · rw [decimalValue] at hvalue ⊢
          rw [List.foldl_append, hvalue, List.foldl_cons, List.foldl_nil, hlast]
          omega

end FFZKit.Foundations

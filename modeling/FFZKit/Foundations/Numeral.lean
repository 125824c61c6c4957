import Mathlib.Algebra.Group.Nat.Defs
import Mathlib.Order.Nat

/-!
# Decimal numerals of a fixed width

`numeral w n` has `w` digits. Texts that begin with numerals of one width are
ordered by the numbers first, and by what follows the numerals when these are
equal. The digits of a number are its numeral without leading zeros.
-/

namespace FFZKit.Foundations

/-- The last `w` decimal digits of `n`, with zeros in front. -/
def numeral : Nat → Nat → List Char
  | 0, _ => []
  | w + 1, n => numeral w (n / 10) ++ [(n % 10).digitChar]

theorem digitChar_lt_iff {a b : Nat} (ha : a < 10) (hb : b < 10) :
    a.digitChar < b.digitChar ↔ a < b := by
  have h : ∀ a < 10, ∀ b < 10, a.digitChar < b.digitChar ↔ a < b := by decide
  exact h a ha b hb

theorem digitChar_inj {a b : Nat} (ha : a < 10) (hb : b < 10) :
    a.digitChar = b.digitChar ↔ a = b := by
  have h : ∀ a < 10, ∀ b < 10, a.digitChar = b.digitChar ↔ a = b := by decide
  exact h a ha b hb

theorem isDigit_digitChar {a : Nat} (ha : a < 10) : a.digitChar.isDigit = true := by
  have h : ∀ a < 10, a.digitChar.isDigit = true := by decide
  exact h a ha

@[simp] theorem length_numeral (w n : Nat) : (numeral w n).length = w := by
  induction w generalizing n with
  | zero => rfl
  | succ w ih => simp [numeral, ih]

theorem isDigit_of_mem_numeral {w n : Nat} {c : Char} (h : c ∈ numeral w n) :
    c.isDigit = true := by
  induction w generalizing n with
  | zero => cases h
  | succ w ih =>
      rw [numeral, List.mem_append, List.mem_singleton] at h
      rcases h with h | rfl
      · exact ih h
      · exact isDigit_digitChar (Nat.mod_lt n (by decide))

section Compare

variable {w a b : Nat} {s t : List Char}

/-- Texts with numerals of one width in front are ordered like the numbers. -/
theorem numeral_append_lt_iff (ha : a < 10 ^ w) (hb : b < 10 ^ w) :
    numeral w a ++ s < numeral w b ++ t ↔ a < b ∨ a = b ∧ s < t := by
  induction w generalizing a b s t with
  | zero =>
      obtain rfl : a = 0 := by simpa using ha
      obtain rfl : b = 0 := by simpa using hb
      simp [numeral]
  | succ w ih =>
      rw [pow_succ] at ha hb
      have ha' : a / 10 < 10 ^ w := by omega
      have hb' : b / 10 < 10 ^ w := by omega
      have hamod : a % 10 < 10 := Nat.mod_lt a (by decide)
      have hbmod : b % 10 < 10 := Nat.mod_lt b (by decide)
      rw [numeral, numeral, List.append_assoc, List.append_assoc, ih ha' hb',
        List.singleton_append, List.singleton_append, List.cons_lt_cons_iff,
        digitChar_lt_iff hamod hbmod, digitChar_inj hamod hbmod]
      constructor
      · rintro (hlt | ⟨heq, hlt | ⟨hmod, hlt⟩⟩)
        · exact Or.inl (by omega)
        · exact Or.inl (by omega)
        · exact Or.inr ⟨by omega, hlt⟩
      · rintro (hlt | ⟨rfl, hlt⟩)
        · by_cases hdiv : a / 10 = b / 10
          · exact Or.inr ⟨hdiv, Or.inl (by omega)⟩
          · exact Or.inl (by omega)
        · exact Or.inr ⟨rfl, Or.inr ⟨rfl, hlt⟩⟩

theorem numeral_append_inj (ha : a < 10 ^ w) (hb : b < 10 ^ w)
    (h : numeral w a ++ s = numeral w b ++ t) : a = b ∧ s = t := by
  induction w generalizing a b s t with
  | zero =>
      obtain rfl : a = 0 := by simpa using ha
      obtain rfl : b = 0 := by simpa using hb
      exact ⟨rfl, h⟩
  | succ w ih =>
      rw [pow_succ] at ha hb
      rw [numeral, numeral, List.append_assoc, List.append_assoc] at h
      obtain ⟨hdiv, hrest⟩ := ih (by omega) (by omega) h
      rw [List.singleton_append, List.singleton_append, List.cons.injEq,
        digitChar_inj (Nat.mod_lt a (by decide)) (Nat.mod_lt b (by decide))] at hrest
      exact ⟨by omega, hrest.2⟩

end Compare

/-- A numeral begins with the numeral of the number without its last digits. -/
theorem numeral_add (w k n : Nat) :
    numeral (w + k) n = numeral w (n / 10 ^ k) ++ numeral k n := by
  induction k generalizing n with
  | zero => simp [numeral]
  | succ k ih =>
      rw [← Nat.add_assoc, numeral, ih, numeral, ← List.append_assoc, Nat.div_div_eq_div_mul,
        ← pow_succ']

theorem numeral_zero (w : Nat) : numeral w 0 = List.replicate w '0' := by
  induction w with
  | zero => rfl
  | succ w ih => rw [numeral, Nat.zero_div, ih, List.replicate_succ']; rfl

/-- Leading zeros fill a numeral up. -/
theorem replicate_append_numeral {w n : Nat} (h : n < 10 ^ w) (k : Nat) :
    List.replicate k '0' ++ numeral w n = numeral (k + w) n := by
  rw [numeral_add, Nat.div_eq_of_lt h, numeral_zero]

theorem lt_pow_length_toDigits (n : Nat) : n < 10 ^ (Nat.toDigits 10 n).length :=
  (Nat.length_toDigits_le_iff (by decide) Nat.length_toDigits_pos).mp (Nat.le_refl _)

theorem toDigits_eq_numeral (n : Nat) :
    Nat.toDigits 10 n = numeral (Nat.toDigits 10 n).length n := by
  induction n using Nat.strong_induction_on with
  | h n ih =>
      by_cases hn : n < 10
      · rw [Nat.toDigits_of_lt_base hn]
        simp [numeral, Nat.mod_eq_of_lt hn]
      · have hdiv := ih (n / 10) (by omega)
        rw [Nat.toDigits_of_base_le (by decide) (by omega), List.length_append,
          List.length_singleton, numeral, ← hdiv]

/-- The digits of a number, with zeros in front up to a width. -/
theorem replicate_append_toDigits (w n : Nat) :
    List.replicate (w - (Nat.toDigits 10 n).length) '0' ++ Nat.toDigits 10 n =
      numeral (max w (Nat.toDigits 10 n).length) n := by
  calc
    _ = List.replicate (w - (Nat.toDigits 10 n).length) '0' ++
          numeral (Nat.toDigits 10 n).length n :=
        congrArg _ (toDigits_eq_numeral n)
    _ = numeral (w - (Nat.toDigits 10 n).length + (Nat.toDigits 10 n).length) n :=
        replicate_append_numeral (lt_pow_length_toDigits n) _
    _ = numeral (max w (Nat.toDigits 10 n).length) n := by
        congr 1
        omega

end FFZKit.Foundations

import FFZKit.Foundations.Text
import Mathlib.Tactic.Common

/-!
# `trim`

`TRIM` marks the characters to drop in a table of 255 entries and reads the
table with `at`, so a string that begins or ends with byte 255 next to what
is dropped makes it throw `std::out_of_range`.
-/

namespace FFZKit.Util

open FFZKit.Foundations

/-- The bytes of a `std::string`. -/
abbrev Bytes := List UInt8

/-- The bytes of an ASCII literal of the source. -/
def ascii (s : String) : Bytes := s.toList.map Char.toUInt8

/-- `string map(size, '\0')` with the entries of `chars` set. -/
def charMap (size : Nat) (chars : Bytes) : List Bool :=
  chars.foldl (fun map ch => map.set ch.toNat true) (List.replicate size false)

/-- `while (s.size() && map.at(s.front())) s.erase(0, 1)`, where `at` may throw. -/
def eraseFront (map : List Bool) : Bytes → Option Bytes
  | [] => some []
  | c :: s =>
      match map[c.toNat]? with
      | none => none
      | some true => eraseFront map s
      | some false => some (c :: s)

/-- `while (s.size() && map.at(s.back())) s.pop_back()` -/
def popBack (map : List Bool) (s : Bytes) : Option Bytes :=
  (eraseFront map s.reverse).map List.reverse

/-- `TRIM(s, chars)` -/
def trimChars (s chars : Bytes) : Option Bytes :=
  (popBack (charMap 0xFF chars) s).bind (eraseFront (charMap 0xFF chars))

/-- The default argument `chars`. -/
def blanks : Bytes := ascii " \r\n\t"

/-- `trim(s)` -/
def trim (s : Bytes) : Option Bytes := trimChars s blanks

/-- The byte is one of the default `chars`. -/
def isBlank (c : UInt8) : Bool := blanks.contains c

/-- Byte 255 is at neither end. -/
def Edged (s : Bytes) : Prop := s.head? ≠ some 0xFF ∧ s.getLast? ≠ some 0xFF

instance (s : Bytes) : Decidable (Edged s) := inferInstanceAs (Decidable (_ ∧ _))

theorem charMap_length (size : Nat) (chars : Bytes) : (charMap size chars).length = size := by
  have hfold : ∀ map : List Bool, (chars.foldl (fun map ch => map.set ch.toNat true) map).length =
      map.length := by
    induction chars with
    | nil => exact fun _ => rfl
    | cons ch chars ih =>
        intro map
        rw [List.foldl_cons, ih, List.length_set]
  rw [charMap, hfold, List.length_replicate]

/-- An entry of the table is set for the listed characters. -/
theorem charMap_getElem? (size : Nat) (chars : Bytes) {c : UInt8} (hc : c.toNat < size) :
    (charMap size chars)[c.toNat]? = some (chars.contains c) := by
  have hfold : ∀ map : List Bool, map.length = size → ∀ b, map[c.toNat]? = some b →
      (chars.foldl (fun map ch => map.set ch.toNat true) map)[c.toNat]? =
        some (b || chars.contains c) := by
    induction chars with
    | nil =>
        intro map _ b hb
        simpa using hb
    | cons ch chars ih =>
        intro map hlen b hb
        rw [List.foldl_cons]
        by_cases hch : ch = c
        · rw [ih _ (by rw [List.length_set, hlen]) true]
          · simp [hch]
          · rw [hch, List.getElem?_set_self (by omega)]
        · have hne : ch.toNat ≠ c.toNat := fun h => hch (UInt8.toNat_inj.mp h)
          rw [ih _ (by rw [List.length_set, hlen]) b]
          · simp [Ne.symm hch]
          · rw [List.getElem?_set_ne hne, hb]
  rw [charMap, hfold _ List.length_replicate false]
  · rw [Bool.false_or]
  · rw [List.getElem?_replicate, if_pos hc]

/-- What `at` finds in the table of `trim`. -/
theorem trimMap_getElem? (chars : Bytes) (c : UInt8) :
    (charMap 0xFF chars)[c.toNat]? = if c = 0xFF then none else some (chars.contains c) := by
  have hc : c.toNat < 256 := c.toNat_lt
  split
  · rename_i h
    rw [h, List.getElem?_eq_none]
    rw [charMap_length]
    decide
  · rename_i h
    have hne : c.toNat ≠ 255 := fun h' => h (UInt8.toNat_inj.mp h')
    exact charMap_getElem? 0xFF chars (by omega)

section Chars

variable {chars : Bytes} (hchars : 0xFF ∉ chars)
include hchars

theorem eraseFront_eq (s : Bytes) : eraseFront (charMap 0xFF chars) s =
    if (s.dropWhile chars.contains).head? = some 0xFF then none
    else some (s.dropWhile chars.contains) := by
  induction s with
  | nil => rfl
  | cons c s ih =>
      rw [eraseFront, trimMap_getElem?]
      by_cases hc : c = 0xFF
      · simp [hc, hchars]
      · cases hdrop : chars.contains c with
        | true => simp only [hc, if_false, ih, List.dropWhile_cons_of_pos hdrop]
        | false =>
            have hkept : (c :: s).dropWhile chars.contains = c :: s :=
              List.dropWhile_cons_of_neg (ne_true_of_eq_false hdrop)
            simp [hkept, hc]

theorem popBack_eq (s : Bytes) : popBack (charMap 0xFF chars) s =
    if (s.rdropWhile chars.contains).getLast? = some 0xFF then none
    else some (s.rdropWhile chars.contains) := by
  rw [popBack, eraseFront_eq hchars, List.rdropWhile, List.getLast?_reverse]
  split <;> rfl

/-- `trim` strips the characters at both ends and throws when byte 255 is then
at an end. -/
theorem trimChars_eq (s : Bytes) : trimChars s chars =
    if Edged (strip chars.contains s) then some (strip chars.contains s) else none := by
  rw [trimChars, popBack_eq hchars]
  by_cases hback : (s.rdropWhile chars.contains).getLast? = some 0xFF
  · have hnot : ¬ Edged (strip chars.contains s) := fun h => h.2 (getLast?_strip.trans hback)
    rw [if_pos hback, if_neg hnot]
    rfl
  · rw [if_neg hback, Option.bind_some, eraseFront_eq hchars, ← strip]
    by_cases hfront : (strip chars.contains s).head? = some 0xFF
    · rw [if_pos hfront, if_neg fun h => h.1 hfront]
    · have hlast : (strip chars.contains s).getLast? ≠ some 0xFF := fun h =>
        hback (getLast?_strip.symm.trans h)
      rw [if_neg hfront, if_pos ⟨hfront, hlast⟩]

end Chars

/-- `trim` strips the blanks at both ends and throws when byte 255 is then at
an end. -/
theorem trim_eq (s : Bytes) :
    trim s = if Edged (strip isBlank s) then some (strip isBlank s) else none :=
  trimChars_eq (show 0xFF ∉ blanks by decide) s

end FFZKit.Util

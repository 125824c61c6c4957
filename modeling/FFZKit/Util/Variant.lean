import FFZKit.Foundations.Decimal
import FFZKit.Util.Trim
import Mathlib.Algebra.Ring.Int.Defs

/-!
# Integers in a `variant`

A `variant` is a text. An integer is written in decimal, after promotion to a type
that `std::to_string` takes, and read by the extraction operator of a stream,
except that `bool` and `uint8_t` have readers of their own.

## Implementation notes

A `short` is read as a `long` and an `int` too, and the range is checked, so the
extraction of a signed type is one function of its range. An unsigned type takes a
sign, and negates. `towlower` is that of the "C" locale.
-/

namespace FFZKit.Util.Variant

open FFZKit.Foundations

/-- The integer types with a variant of their own. -/
inductive IntType
  | bool
  | int8
  | uint8
  | int16
  | uint16
  | int32
  | uint32
  | int64
  | uint64
  deriving DecidableEq, Repr

namespace IntType

def min : IntType → Int
  | bool | uint8 | uint16 | uint32 | uint64 => 0
  | int8 => -2 ^ 7
  | int16 => -2 ^ 15
  | int32 => -2 ^ 31
  | int64 => -2 ^ 63

def max : IntType → Int
  | bool => 1
  | int8 => 2 ^ 7 - 1
  | uint8 => 2 ^ 8 - 1
  | int16 => 2 ^ 15 - 1
  | uint16 => 2 ^ 16 - 1
  | int32 => 2 ^ 31 - 1
  | uint32 => 2 ^ 32 - 1
  | int64 => 2 ^ 63 - 1
  | uint64 => 2 ^ 64 - 1

/-- A value of the type. -/
structure Value (T : IntType) where
  val : Int
  min_le : T.min ≤ val
  le_max : val ≤ T.max

end IntType

/-- `std::to_string` -/
def to_string (x : Int) : Bytes :=
  if x < 0 then ascii "-" ++ decimal x.natAbs else decimal x.natAbs

/-- The constructor from an integer. -/
def variant {T : IntType} (x : T.Value) : Bytes := to_string x.val

/-- `isspace` in the "C" locale. -/
def isSpace (b : UInt8) : Bool := b = 32 || 9 ≤ b && b ≤ 13

/-- A sign, if there is one, and what follows. -/
def readSign : Bytes → Bool × Bytes
  | [] => (false, [])
  | b :: rest =>
      if b = 45 then (true, rest) else if b = 43 then (false, rest) else (false, b :: rest)

/-- The number that `num_get` reads: whether it has a minus sign, and its digits,
of which there must be one. -/
def readNumber (text : Bytes) : Option (Bool × Nat) :=
  let signed := readSign (text.dropWhile isSpace)
  let digits := signed.2.takeWhile isDigitByte
  if digits = [] then none else some (signed.1, decimalValue digits)

/-- The extraction of a signed integer; it fails outside the range. -/
def extractSigned (T : IntType) (text : Bytes) : Option Int :=
  match readNumber text with
  | none => none
  | some (negative, n) =>
      let x : Int := if negative then -n else n
      if T.min ≤ x ∧ x ≤ T.max then some x else none

/-- The extraction of an unsigned integer. -/
def extractUnsigned (T : IntType) (text : Bytes) : Option Int :=
  match readNumber text with
  | none => none
  | some (negative, n) =>
      if (n : Int) ≤ T.max then
        some (if negative then -(n : Int) % (T.max + 1) else n)
      else none

/-- `ss >> t` for the types: an `int8_t` is a character, and a `bool` is 0 or 1. -/
def extract : IntType → Bytes → Option Int
  | .bool, text =>
      match extractSigned .int64 text with
      | some 0 => some 0
      | some 1 => some 1
      | _ => none
  | .int8, text =>
      match text.dropWhile isSpace with
      | [] => none
      | b :: _ => some b.toInt8.toInt
  | .uint8, text =>
      match text.dropWhile isSpace with
      | [] => none
      | b :: _ => some b.toNat
  | .uint16, text => extractUnsigned .uint16 text
  | .uint32, text => extractUnsigned .uint32 text
  | .uint64, text => extractUnsigned .uint64 text
  | T, text => extractSigned T text

/-- `as_default<T>()`: `T()` where the extraction fails. -/
def as_default (T : IntType) (text : Bytes) : Int := (extract T text).getD 0

/-- `strToLower` -/
def strToLower (text : Bytes) : Bytes :=
  text.map fun b => if 65 ≤ b && b ≤ 90 then b + 32 else b

/-- `as<bool>()` -/
def asBool (text : Bytes) : Int :=
  if text.isEmpty || (text.head?.map isDigitByte).getD false then as_default .bool text
  else if strToLower text = ascii "true" then 1
  else if strToLower text = ascii "false" then 0
  else as_default .bool text

/-- `as<uint8_t>()`: the last eight bits of an `int`. -/
def asUInt8 (text : Bytes) : Int := as_default .int32 text % 256

/-- `as<T>()` -/
def as : IntType → Bytes → Int
  | .bool, text => asBool text
  | .uint8, text => asUInt8 text
  | T, text => as_default T text

/-- A digit is neither a space nor a sign. -/
theorem not_space_of_digit {b : UInt8} (h : isDigitByte b = true) :
    isSpace b = false ∧ b ≠ 45 ∧ b ≠ 43 := by
  simp only [isDigitByte, Bool.and_eq_true, decide_eq_true_eq, UInt8.le_iff_toNat_le] at h
  have hlow : 48 ≤ b.toNat := h.1
  have hne : ∀ c : UInt8, c.toNat < 48 → b ≠ c := by
    rintro c hc rfl
    omega
  have hspace : ¬ b ≤ 13 := fun hle => absurd (UInt8.le_iff_toNat_le.mp hle) (by
    rw [show (13 : UInt8).toNat = 13 from rfl]
    omega)
  exact ⟨by simp [isSpace, hspace, hne 32 (by decide)], hne 45 (by decide), hne 43 (by decide)⟩

theorem takeWhile_decimal (n : Nat) : (decimal n).takeWhile isDigitByte = decimal n :=
  List.takeWhile_eq_self_iff.mpr (decimal_spec n).1

/-- The first digit of a number, and the others. -/
theorem exists_digit (n : Nat) : ∃ b rest, decimal n = b :: rest ∧ isDigitByte b = true := by
  obtain ⟨b, rest, h⟩ := List.exists_cons_of_ne_nil (decimal_ne_nil n)
  exact ⟨b, rest, h, (decimal_spec n).1 b (h ▸ List.mem_cons_self)⟩

/-- `num_get` reads back what `to_string` writes. -/
theorem readNumber_to_string (x : Int) :
    readNumber (to_string x) = some (decide (x < 0), x.natAbs) := by
  obtain ⟨b, rest, hdecimal, hdigit⟩ := exists_digit x.natAbs
  obtain ⟨hspace, hminus, hplus⟩ := not_space_of_digit hdigit
  have hvalue := (decimal_spec x.natAbs).2
  have hread : readSign ((to_string x).dropWhile isSpace) =
      (decide (x < 0), decimal x.natAbs) := by
    rw [to_string]
    by_cases hx : x < 0
    · rw [if_pos hx, decide_eq_true hx]
      rfl
    · rw [if_neg hx, decide_eq_false hx, hdecimal, List.dropWhile_cons_of_neg (by simp [hspace]),
        readSign, if_neg hminus, if_neg hplus]
  rw [readNumber, hread]
  simp only [takeWhile_decimal, decimal_ne_nil, if_false, hvalue]

theorem extractSigned_to_string {T : IntType} (x : T.Value) :
    extractSigned T (to_string x.val) = some x.val := by
  have hsign : (if decide (x.val < 0) = true then -(x.val.natAbs : Int) else x.val.natAbs) =
      x.val := by
    by_cases hx : x.val < 0
    · rw [decide_eq_true hx, if_pos rfl]
      omega
    · rw [decide_eq_false hx, if_neg (by decide)]
      omega
  rw [extractSigned, readNumber_to_string]
  simp only [hsign]
  rw [if_pos ⟨x.min_le, x.le_max⟩]

theorem extractUnsigned_to_string {T : IntType} (x : T.Value) (hmin : 0 ≤ T.min) :
    extractUnsigned T (to_string x.val) = some x.val := by
  have hx : 0 ≤ x.val := Int.le_trans hmin x.min_le
  have habs : (x.val.natAbs : Int) = x.val := Int.natAbs_of_nonneg hx
  have hsign : decide (x.val < 0) = false := decide_eq_false (by omega)
  rw [extractUnsigned, readNumber_to_string]
  simp only [hsign, habs, if_pos x.le_max]
  rfl

/-- A value of a type is one of a wider type. -/
def IntType.Value.widen {T : IntType} (x : T.Value) (U : IntType) (hmin : U.min ≤ T.min)
    (hmax : T.max ≤ U.max) : U.Value where
  val := x.val
  min_le := Int.le_trans hmin x.min_le
  le_max := Int.le_trans x.le_max hmax

theorem as_default_of_extract {T : IntType} {text : Bytes} {x : Int}
    (h : extract T text = some x) : as_default T text = x := by
  rw [as_default, h]
  rfl

theorem as_bool_variant (x : IntType.bool.Value) : as .bool (variant x) = x.val := by
  have hmin : 0 ≤ x.val := x.min_le
  have hmax : x.val ≤ 1 := x.le_max
  have hread := extractSigned_to_string (x.widen .int64 (by decide) (by decide))
  have hextract : extract .bool (to_string x.val) = some x.val := by
    rw [extract, show extractSigned .int64 (to_string x.val) = some x.val from hread]
    obtain h | h : x.val = 0 ∨ x.val = 1 := by omega
    · rw [h]
      rfl
    · rw [h]
      rfl
  obtain ⟨b, rest, hdecimal, hdigit⟩ := exists_digit x.val.natAbs
  have htext : to_string x.val = b :: rest := by
    rw [to_string, if_neg (by omega), hdecimal]
  have hfront : ((to_string x.val).isEmpty ||
      ((to_string x.val).head?.map isDigitByte).getD false) = true := by
    rw [htext, List.head?_cons, Option.map_some, hdigit]
    rfl
  rw [as, asBool, variant, if_pos hfront]
  exact as_default_of_extract hextract

theorem as_uint8_variant (x : IntType.uint8.Value) : as .uint8 (variant x) = x.val := by
  have hmin : 0 ≤ x.val := x.min_le
  have hmax : x.val ≤ 255 := x.le_max
  have hread := extractSigned_to_string (x.widen .int32 (by decide) (by decide))
  have hdefault : as_default .int32 (to_string x.val) = x.val := as_default_of_extract hread
  rw [as, asUInt8, variant, hdefault]
  omega

/-- The character that is read is the first of the text. -/
theorem as_int8_variant_iff (x : IntType.int8.Value) :
    as .int8 (variant x) = x.val ↔ x.val = 53 := by
  have hmax : x.val ≤ 127 := x.le_max
  have has : as .int8 (variant x) = as_default .int8 (variant x) := rfl
  by_cases hx : x.val < 0
  · have hminus : as .int8 (variant x) = 45 := by
      rw [has, variant, to_string, if_pos hx]
      rfl
    rw [hminus]
    omega
  · have hfirst : ∀ n < 128, as_default .int8 (decimal n) = (n : Int) ↔ n = 53 := by decide
    have hdigits := hfirst x.val.natAbs (by omega)
    rw [has, variant, to_string, if_neg hx]
    omega

/-- Every value of every type is read back, except that of the signed characters
only 53 is, whose first digit has this code. -/
theorem as_variant_iff (T : IntType) (x : T.Value) :
    as T (variant x) = x.val ↔ (T = .int8 → x.val = 53) := by
  cases T with
  | int8 =>
      rw [as_int8_variant_iff]
      exact ⟨fun h _ => h, fun h => h rfl⟩
  | bool => exact iff_of_true (as_bool_variant x) nofun
  | uint8 => exact iff_of_true (as_uint8_variant x) nofun
  | int16 => exact iff_of_true (as_default_of_extract (extractSigned_to_string x)) nofun
  | int32 => exact iff_of_true (as_default_of_extract (extractSigned_to_string x)) nofun
  | int64 => exact iff_of_true (as_default_of_extract (extractSigned_to_string x)) nofun
  | uint16 =>
      exact iff_of_true (as_default_of_extract (extractUnsigned_to_string x (by decide))) nofun
  | uint32 =>
      exact iff_of_true (as_default_of_extract (extractUnsigned_to_string x (by decide))) nofun
  | uint64 =>
      exact iff_of_true (as_default_of_extract (extractUnsigned_to_string x (by decide))) nofun

/-- 65 is written as two digits, of which the first is read. -/
theorem not_as_variant : ∃ x : IntType.int8.Value,
    x.val = 65 ∧ as .int8 (variant x) = 54 ∧ as .int8 (variant x) ≠ x.val :=
  ⟨⟨65, by decide, by decide⟩, rfl, by decide, by decide⟩

end FFZKit.Util.Variant

import FFZKit.Foundations.Numeral
import FFZKit.Foundations.Text
import FFZKit.Util.FileChannel
import Mathlib.Data.String.Basic

/-!
# The names of log files

The name of a log file tells the date that it was made from. Of two files, the
one with the earlier date has the smaller name while years have four digits.
Files of one day are ordered by the texts of their indices.
-/

namespace FFZKit.Util

open FFZKit.Foundations

/-- A day of the calendar, as `getLocalTime` gives it from 1970 on. -/
@[ext] structure Date where
  year : Nat
  month : Nat
  day : Nat
  month_mem : 1 ≤ month ∧ month ≤ 12
  day_mem : 1 ≤ day ∧ day ≤ 31
  deriving DecidableEq

namespace Date

theorem month_lt (date : Date) : date.month < 100 := by have := date.month_mem.2; omega

theorem day_lt (date : Date) : date.day < 100 := by have := date.day_mem.2; omega

def toTuple (date : Date) : Int × Int × Int := (date.year, date.month, date.day)

/-- The order of the calendar. -/
def Before (a b : Date) : Prop :=
  a.year < b.year ∨ a.year = b.year ∧ (a.month < b.month ∨ a.month = b.month ∧ a.day < b.day)

instance (a b : Date) : Decidable (Before a b) :=
  inferInstanceAs (Decidable (_ ∨ _ ∧ (_ ∨ _ ∧ _)))

theorem not_before_self (a : Date) : ¬ Before a a := by
  simp [Before]

/-- The characters of the date in a file name, with the underscore after it. -/
def text (date : Date) : List Char :=
  Nat.toDigits 10 date.year ++ '-' :: (numeral 2 date.month ++ '-' ::
    (numeral 2 date.day ++ ['_']))

end Date

/-- The characters of the index in a file name, and what follows it. -/
def indexText (index : Int) : List Char := (padded 2 index ++ ".log").toList

theorem toList_padded (w n : Nat) :
    (padded w n).toList = numeral (max w (Nat.toDigits 10 n).length) n := by
  have hsign : ¬ (n : Int) < 0 := by omega
  have hlen : n.repr.length = (Nat.toDigits 10 n).length := by
    rw [← String.length_toList, Nat.toList_repr]
  rw [← replicate_append_toDigits]
  simp [padded, hsign, hlen]

theorem toList_padded_two {n : Nat} (h : n < 100) : (padded 2 n).toList = numeral 2 n := by
  have hlen : (Nat.toDigits 10 n).length ≤ 2 :=
    (Nat.length_toDigits_le_iff (by decide) (by decide)).mpr h
  rw [toList_padded, Nat.max_eq_left hlen]

theorem toList_getLogFilePath {zone : Zone} {second : Int} {date : Date}
    (h : zone.localDate second = date.toTuple) (dir : String) (index : Int) :
    (getLogFilePath zone dir second index).toList =
      dir.toList ++ (date.text ++ indexText index) := by
  have hyear : (toString (date.year : Int)).toList = Nat.toDigits 10 date.year :=
    Nat.toList_repr
  simp only [getLogFilePath, h, Date.toTuple, String.toList_append, hyear,
    toList_padded_two date.month_lt, toList_padded_two date.day_lt, Date.text, indexText]
  simp

/-- Digits are no separators. -/
theorem notMem_of_isDigit {s : List Char} (h : ∀ c ∈ s, c.isDigit = true) {c : Char}
    (hc : c.isDigit = false) : c ∉ s := by
  intro hmem
  rw [h c hmem] at hc
  cases hc

/-- A year of four digits is written with four. -/
theorem toDigits_year {year : Nat} (h : 1000 ≤ year ∧ year ≤ 9999) :
    Nat.toDigits 10 year = numeral 4 year := by
  have hle : (Nat.toDigits 10 year).length ≤ 4 :=
    (Nat.length_toDigits_le_iff (by decide) (by decide)).mpr (by omega)
  have hge : ¬ (Nat.toDigits 10 year).length ≤ 3 := by
    rw [Nat.length_toDigits_le_iff (by decide) (by decide)]
    omega
  rw [toDigits_eq_numeral]
  congr 1
  omega

/-- The date can be read off a file name. -/
theorem Date.text_append_inj {a b : Date} {s t : List Char}
    (h : a.text ++ s = b.text ++ t) : a = b ∧ s = t := by
  have hdigits : ∀ n : Nat, '-' ∉ Nat.toDigits 10 n := fun n =>
    notMem_of_isDigit (fun _ => Nat.isDigit_of_mem_toDigits (by decide) (by decide)) rfl
  simp only [Date.text, List.append_assoc, List.cons_append] at h
  have hyear := congrArg (before '-') h
  rw [before_append_cons (hdigits _), before_append_cons (hdigits _)] at hyear
  have hrest := congrArg (after '-') h
  rw [after_append_cons (hdigits _), after_append_cons (hdigits _)] at hrest
  obtain ⟨hmonth, hrest⟩ := numeral_append_inj a.month_lt b.month_lt hrest
  obtain ⟨hday, hrest⟩ := numeral_append_inj a.day_lt b.day_lt (List.cons.inj hrest).2
  refine ⟨?_, (List.cons.inj hrest).2⟩
  have hyear' : a.year = b.year := by
    rw [← Nat.ofDigitChars_ten_toDigits (n := a.year), hyear, Nat.ofDigitChars_ten_toDigits]
  cases a
  cases b
  simp_all

/-- A file name of one date is not one of another date. -/
theorem localDate_eq_of_getLogFilePath {zone : Zone} {dir : String} {second second' : Int}
    {date date' : Date} {index index' : Int} (hdate : zone.localDate second = date.toTuple)
    (hdate' : zone.localDate second' = date'.toTuple)
    (h : getLogFilePath zone dir second index = getLogFilePath zone dir second' index') :
    zone.localDate second = zone.localDate second' := by
  have hlist := congrArg String.toList h
  rw [toList_getLogFilePath hdate, toList_getLogFilePath hdate'] at hlist
  obtain ⟨rfl, _⟩ := Date.text_append_inj (List.append_cancel_left hlist)
  rw [hdate, hdate']

/-! ## Slices -/

/-- A log file: its date, with a year of four digits, and its index, an `int32_t`. -/
structure Slice where
  date : Date
  index : Nat
  year_mem : 1000 ≤ date.year ∧ date.year ≤ 9999
  index_lt : index < 2 ^ 31
  deriving DecidableEq

/-- The number of digits of an index in a file name. -/
def indexWidth (index : Nat) : Nat := max 2 (Nat.toDigits 10 index).length

/-- The first digits of the larger index, as many as the smaller one has in a
file name, are no smaller number. -/
def InTextOrder (i j : Nat) : Prop := i ≤ j / 10 ^ (indexWidth j - indexWidth i)

instance (i j : Nat) : Decidable (InTextOrder i j) := inferInstanceAs (Decidable (_ ≤ _))

namespace Slice

/-- The name that `getLogFilePath` gives to the slice. -/
def name (dir : String) (a : Slice) : String :=
  dir ++ toString (a.date.year : Int) ++ "-" ++ padded 2 a.date.month ++ "-" ++
    padded 2 a.date.day ++ "_" ++ padded 2 a.index ++ ".log"

/-- The order of `(date, index)`. -/
def Older (a b : Slice) : Prop :=
  a.date.Before b.date ∨ a.date = b.date ∧ a.index < b.index

end Slice

theorem getLogFilePath_eq_name {zone : Zone} {second : Int} {a : Slice}
    (h : zone.localDate second = a.date.toTuple) (dir : String) :
    getLogFilePath zone dir second a.index = a.name dir := by
  simp only [getLogFilePath, h, Date.toTuple, Slice.name]

theorem lt_pow_indexWidth (i : Nat) : i < 10 ^ indexWidth i :=
  (lt_pow_length_toDigits i).trans_le (Nat.pow_le_pow_right (by decide) (Nat.le_max_right _ _))

theorem indexWidth_mono {i j : Nat} (h : i ≤ j) : indexWidth i ≤ indexWidth j := by
  have hlen : (Nat.toDigits 10 i).length ≤ (Nat.toDigits 10 j).length :=
    (Nat.length_toDigits_le_iff (by decide) Nat.length_toDigits_pos).mpr
      (h.trans_lt (lt_pow_length_toDigits j))
  simp only [indexWidth]
  omega

theorem indexText_natCast (i : Nat) :
    indexText i = numeral (indexWidth i) i ++ ".log".toList := by
  rw [indexText, String.toList_append, toList_padded, indexWidth]

/-- The texts of indices of one day are in the order of the indices, or not. -/
theorem indexText_lt_iff {i j : Nat} (h : i < j) :
    indexText i < indexText j ↔ InTextOrder i j := by
  have hwidth : indexWidth j = indexWidth i + (indexWidth j - indexWidth i) := by
    have := indexWidth_mono h.le
    omega
  have hdiv : j / 10 ^ (indexWidth j - indexWidth i) < 10 ^ indexWidth i := by
    rw [Nat.div_lt_iff_lt_mul (Nat.pow_pos (by decide)), ← pow_add, ← hwidth]
    exact lt_pow_indexWidth j
  have htext : indexText j = numeral (indexWidth i) (j / 10 ^ (indexWidth j - indexWidth i)) ++
      (numeral (indexWidth j - indexWidth i) j ++ ".log".toList) := by
    calc
      indexText j = numeral (indexWidth i + (indexWidth j - indexWidth i)) j ++ ".log".toList := by
        rw [indexText_natCast, ← hwidth]
      _ = _ := by rw [numeral_add, List.append_assoc]
  rw [htext, indexText_natCast, numeral_append_lt_iff (lt_pow_indexWidth i) hdiv, InTextOrder]
  constructor
  · rintro (hlt | ⟨heq, -⟩)
    · exact hlt.le
    · exact heq.le
  · intro hle
    rcases hle.lt_or_eq with hlt | heq
    · exact Or.inl hlt
    · refine Or.inr ⟨heq, ?_⟩
      -- the point comes before the digits that are left
      cases hk : indexWidth j - indexWidth i with
      | zero =>
          rw [hk, pow_zero, Nat.div_one] at heq
          exact absurd heq h.ne
      | succ k =>
          have hlen := length_numeral (k + 1) j
          cases hdigits : numeral (k + 1) j with
          | nil =>
              rw [hdigits] at hlen
              cases hlen
          | cons c digits =>
              have hc : c.isDigit = true := isDigit_of_mem_numeral (hdigits ▸ List.mem_cons_self)
              have hpoint : '.' < c := by
                simp only [Char.isDigit, Bool.and_eq_true, decide_eq_true_eq] at hc
                exact Nat.lt_of_lt_of_le (by decide) hc.1
              exact List.cons_lt_cons_iff.mpr (Or.inl hpoint)

theorem indexText_inj {i j : Nat} (h : indexText i = indexText j) : i = j := by
  rw [indexText_natCast, indexText_natCast] at h
  have hlen := congrArg List.length h
  simp only [List.length_append, length_numeral, Nat.add_right_cancel_iff] at hlen
  rw [hlen] at h
  exact (numeral_append_inj (hlen ▸ lt_pow_indexWidth i) (lt_pow_indexWidth j) h).1

example : InTextOrder 10 100 ∧ ¬ InTextOrder 11 100 := by decide

theorem append_lt_append_iff (l : List Char) {s t : List Char} : l ++ s < l ++ t ↔ s < t := by
  induction l with
  | nil => exact Iff.rfl
  | cons c l ih => rw [List.cons_append, List.cons_append, List.cons_lt_cons_self, ih]

namespace Slice

variable {dir : String} {a b : Slice}

theorem toList_name (dir : String) (a : Slice) :
    (a.name dir).toList = dir.toList ++ (a.date.text ++ indexText a.index) := by
  let zone : Zone := ⟨0, fun _ => a.date.toTuple, ""⟩
  have hdate : zone.localDate 0 = a.date.toTuple := rfl
  rw [← toList_getLogFilePath hdate, getLogFilePath_eq_name hdate]

theorem name_inj (h : a.name dir = b.name dir) : a = b := by
  have hlist := congrArg String.toList h
  rw [toList_name, toList_name] at hlist
  obtain ⟨hdate, htext⟩ := Date.text_append_inj (List.append_cancel_left hlist)
  have hindex := indexText_inj htext
  cases a
  cases b
  simp_all

/-- Names are ordered by dates, and by the texts of the indices on one day. -/
theorem name_lt_iff :
    a.name dir < b.name dir ↔
      a.date.Before b.date ∨ a.date = b.date ∧ indexText a.index < indexText b.index := by
  have hlt : ∀ c : Slice, c.date.year < 10 ^ 4 := by
    intro c
    have hmem := c.year_mem
    omega
  rw [String.lt_iff_toList_lt, toList_name, toList_name, append_lt_append_iff, Date.text,
    Date.text, toDigits_year a.year_mem, toDigits_year b.year_mem]
  simp only [List.append_assoc, List.cons_append, List.nil_append]
  rw [numeral_append_lt_iff (hlt a) (hlt b), List.cons_lt_cons_self,
    numeral_append_lt_iff a.date.month_lt b.date.month_lt, List.cons_lt_cons_self,
    numeral_append_lt_iff a.date.day_lt b.date.day_lt, List.cons_lt_cons_self]
  simp only [Date.Before, Date.ext_iff]
  generalize (indexText a.index < indexText b.index) = later
  constructor
  · rintro (hyear | ⟨hyear, hmonth | ⟨hmonth, hday | ⟨hday, htext⟩⟩⟩)
    · exact Or.inl (Or.inl hyear)
    · exact Or.inl (Or.inr ⟨hyear, Or.inl hmonth⟩)
    · exact Or.inl (Or.inr ⟨hyear, Or.inr ⟨hmonth, hday⟩⟩)
    · exact Or.inr ⟨⟨hyear, hmonth, hday⟩, htext⟩
  · rintro ((hyear | ⟨hyear, hmonth | ⟨hmonth, hday⟩⟩) | ⟨⟨hyear, hmonth, hday⟩, htext⟩)
    · exact Or.inl hyear
    · exact Or.inr ⟨hyear, Or.inl hmonth⟩
    · exact Or.inr ⟨hyear, Or.inr ⟨hmonth, Or.inl hday⟩⟩
    · exact Or.inr ⟨hyear, Or.inr ⟨hmonth, Or.inr ⟨hday, htext⟩⟩⟩

/-- An older slice has the smaller name, but for indices of one day that are not
in the order of their texts. -/
theorem name_lt_iff_of_older (h : Older a b) :
    a.name dir < b.name dir ↔ (a.date = b.date → InTextOrder a.index b.index) := by
  rw [name_lt_iff]
  rcases h with hdate | ⟨hdate, hindex⟩
  · refine iff_of_true (Or.inl hdate) fun hsame => ?_
    rw [hsame] at hdate
    exact absurd hdate b.date.not_before_self
  · rw [indexText_lt_iff hindex, hdate]
    simp [b.date.not_before_self]

end Slice

end FFZKit.Util

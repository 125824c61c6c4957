import FFZKit.Win32.Getopt
import Mathlib.Algebra.Ring.Nat
import Mathlib.Data.List.TakeWhile
import Mathlib.Tactic.Common

/-!
# A command line from left to right

The options of a command line in the order in which they stand there, as
`getopt_long` is to return them. An option takes its element, and the next one
when that is its argument. The other elements are left over. `--` ends the
options, as does the first other element with `POSIXLY_CORRECT`.
-/

namespace FFZKit.Win32

open FFZKit.Util (ArgType)

/-- What a call returns, with `optarg`. -/
abbrev Returned := Int × Option CString

/-- What an option string says about a character. -/
inductive Letter
  | unknown
  | flag
  | optional
  | required
  deriving DecidableEq, Repr

def letter (optstring : CString) (c : UInt8) : Letter :=
  match optstring.dropWhile (· ≠ c) with
  | [] => .unknown
  | _ :: after =>
      if c = colon then .unknown
      else if after.head? = some colon then
        if after[1]? = some colon then .optional else .required
      else .flag

/-- The short options of an element, and whether the next element is an argument. -/
def readShort (optstring : CString) (next : Option CString) : CString → List Returned × Bool
  | [] => ([], false)
  | c :: rest =>
      match letter optstring c with
      | .unknown =>
          ((badOption, none) :: (readShort optstring next rest).1,
            (readShort optstring next rest).2)
      | .flag =>
          ((charCode c, none) :: (readShort optstring next rest).1,
            (readShort optstring next rest).2)
      | .optional => ([(charCode c, if rest.isEmpty then none else some rest)], false)
      | .required =>
          if !rest.isEmpty then ([(charCode c, some rest)], false)
          else
            match next with
            | none => ([(missingArgument optstring, none)], false)
            | some argument => ([(charCode c, some argument)], true)

/-- The options whose names begin with a name. -/
def beginningWith (longopts : List LongOpt) (name : CString) : List LongOpt :=
  longopts.filter fun p => name.isPrefixOf p.name

/-- The option that a name stands for: the first one with exactly this name, or else the
only one whose name begins with it. -/
def longOptionOf (longopts : List LongOpt) (name : CString) : Option LongOpt :=
  match longopts.find? (·.name = name), beginningWith longopts name with
  | some p, _ => some p
  | none, [p] => some p
  | none, _ => none

/-- The long option of an element, and whether the next element is its argument. -/
def readLong (optstring : CString) (longopts : List LongOpt) (next : Option CString)
    (text : CString) : Returned × Bool :=
  match longOptionOf longopts (text.takeWhile (· ≠ equals)) with
  | none => ((badOption, none), false)
  | some p =>
      match text.dropWhile (· ≠ equals) with
      | _ :: value =>
          if p.hasArg ≠ .argNone then ((p.val, some value), false) else ((badOption, none), false)
      | [] =>
          if p.hasArg = .argRequired then
            match next with
            | none => ((missingArgument optstring, none), false)
            | some argument => ((p.val, some argument), true)
          else ((p.val, none), false)

/-- The options of an element, and whether the next element is an argument. -/
def readElement (optstring : CString) (longopts : List LongOpt) (next : Option CString)
    (element : CString) : List Returned × Bool :=
  if element[1]? = some dash then
    let (option, takesNext) := readLong optstring longopts next (element.drop 2)
    ([option], takesNext)
  else readShort optstring next (element.drop 1)

/-- A command line from left to right: what is returned, the elements of the
options with their arguments, and the others. -/
structure Reading where
  results : List Returned
  options : List CString
  others : List CString
  deriving DecidableEq, Repr

/-- Read a command line whose first element is an argument or not. -/
def read (posixlyCorrect : Bool) (optstring : CString) (longopts : List LongOpt) :
    Bool → List CString → Reading
  | _, [] => ⟨[], [], []⟩
  | true, argument :: words =>
      let back := read posixlyCorrect optstring longopts false words
      { back with options := argument :: back.options }
  | false, element :: words =>
      if element = endOfOptions then ⟨[], [element], words⟩
      else if isNonOption element then
        if posixlyCorrect then ⟨[], [], element :: words⟩
        else
          let back := read posixlyCorrect optstring longopts false words
          { back with others := element :: back.others }
      else
        let (options, takesNext) := readElement optstring longopts words.head? element
        let back := read posixlyCorrect optstring longopts takesNext words
        { back with results := options ++ back.results, options := element :: back.options }

/-- The elements that a call skips, and what is unread then. -/
def passed (posixlyCorrect : Bool) (unread : List CString) : List CString :=
  if posixlyCorrect then [] else unread.takeWhile isNonOption

def pending (posixlyCorrect : Bool) (unread : List CString) : List CString :=
  if posixlyCorrect then unread else unread.dropWhile isNonOption

/-- Elements that are skipped are the first of the others. -/
theorem read_pending (posixlyCorrect : Bool) (optstring : CString) (longopts : List LongOpt)
    (unread : List CString) :
    read posixlyCorrect optstring longopts false unread =
      let back := read posixlyCorrect optstring longopts false (pending posixlyCorrect unread)
      { back with others := passed posixlyCorrect unread ++ back.others } := by
  cases posixlyCorrect with
  | true => rfl
  | false =>
      simp only [pending, passed, Bool.false_eq_true, if_false]
      induction unread with
      | nil => rfl
      | cons element words ih =>
          by_cases hother : isNonOption element = true
          · have hend : element ≠ endOfOptions := by
              rintro rfl
              revert hother
              decide
            rw [List.dropWhile_cons_of_pos hother, List.takeWhile_cons_of_pos hother, read,
              if_neg hend, if_pos hother, if_neg Bool.false_ne_true, ih]
            rfl
          · rw [List.dropWhile_cons_of_neg hother, List.takeWhile_cons_of_neg hother]
            rfl

/-- An argument is the first of the options behind it. -/
theorem read_takesNext (posixlyCorrect : Bool) (optstring : CString) (longopts : List LongOpt)
    (takesNext : Bool) (words : List CString) :
    read posixlyCorrect optstring longopts takesNext words =
      let back := read posixlyCorrect optstring longopts false (words.drop takesNext.toNat)
      { back with options := words.take takesNext.toNat ++ back.options } := by
  cases takesNext with
  | false => rfl
  | true => cases words <;> rfl

theorem length_pending_le (posixlyCorrect : Bool) (unread : List CString) :
    (pending posixlyCorrect unread).length ≤ unread.length := by
  unfold pending
  split
  · exact Nat.le_refl _
  · exact (List.dropWhile_sublist _).length_le

/-- Reading only divides the command line, and keeps the order in both parts. -/
theorem read_divides (posixlyCorrect : Bool) (optstring : CString) (longopts : List LongOpt)
    (takesNext : Bool) (words : List CString) :
    let reading := read posixlyCorrect optstring longopts takesNext words
    (reading.options ++ reading.others).Perm words ∧ reading.options.Sublist words ∧
      reading.others.Sublist words := by
  induction words generalizing takesNext with
  | nil =>
      cases takesNext <;> simp [read]
  | cons element words ih =>
      cases takesNext with
      | true =>
          obtain ⟨hperm, hoptions, hothers⟩ := ih false
          exact ⟨hperm.cons element, hoptions.cons_cons element, hothers.cons element⟩
      | false =>
          rw [read]
          split
          · exact ⟨List.Perm.refl _, by simp, List.sublist_cons_self _ _⟩
          · split
            · split
              · exact ⟨List.Perm.refl _, List.nil_sublist _, List.Sublist.refl _⟩
              · obtain ⟨hperm, hoptions, hothers⟩ := ih false
                exact ⟨List.perm_middle.trans (hperm.cons element), hoptions.cons element,
                  hothers.cons_cons element⟩
            · obtain ⟨hperm, hoptions, hothers⟩ :=
                ih (readElement optstring longopts words.head? element).2
              exact ⟨hperm.cons element, hoptions.cons_cons element, hothers.cons element⟩

theorem length_readShort_le (optstring : CString) (next : Option CString) (text : CString) :
    (readShort optstring next text).1.length ≤ text.length := by
  induction text with
  | nil => exact Nat.le_refl _
  | cons c rest ih =>
      unfold readShort
      split
      · exact Nat.succ_le_succ ih
      · exact Nat.succ_le_succ ih
      · exact Nat.succ_le_succ (Nat.zero_le _)
      · split
        · exact Nat.succ_le_succ (Nat.zero_le _)
        · split <;> exact Nat.succ_le_succ (Nat.zero_le _)

theorem length_readElement_le (optstring : CString) (longopts : List LongOpt)
    (next : Option CString) (element : CString) :
    (readElement optstring longopts next element).1.length ≤ element.length := by
  rw [readElement]
  split
  · rename_i hsecond
    have hlength := (List.getElem?_eq_some_iff.mp hsecond).1
    exact Nat.le_of_lt (Nat.lt_of_le_of_lt (Nat.le_refl 1) hlength)
  · have hle := length_readShort_le optstring next (element.drop 1)
    rw [List.length_drop] at hle
    omega

/-- No more options are read than there are characters. -/
theorem length_results_le (posixlyCorrect : Bool) (optstring : CString) (longopts : List LongOpt)
    (takesNext : Bool) (words : List CString) :
    (read posixlyCorrect optstring longopts takesNext words).results.length ≤
      (words.map List.length).sum := by
  induction words generalizing takesNext with
  | nil => cases takesNext <;> exact Nat.le_refl _
  | cons element words ih =>
      rw [List.map_cons, List.sum_cons]
      cases takesNext with
      | true => exact Nat.le_trans (ih false) (Nat.le_add_left _ _)
      | false =>
          rw [read]
          split
          · exact Nat.zero_le _
          · split
            · split
              · exact Nat.zero_le _
              · exact Nat.le_trans (ih false) (Nat.le_add_left _ _)
            · have hle := length_readElement_le optstring longopts words.head? element
              have hih := ih (readElement optstring longopts words.head? element).2
              simp only [List.length_append]
              omega

end FFZKit.Win32

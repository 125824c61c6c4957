import FFZKit.Foundations.Transition
import Mathlib.Logic.Function.Basic
import Mathlib.Tactic.Common

/-!
# `Any`

An `Any` keeps the type it was set with beside a pointer to the object. The
two fields are assigned one after the other: `set` records the type before
it constructs the object, and a move leaves the recorded type behind in the
object moved from. A checked `get` compares the recorded type only.

## Implementation notes

The objects of a program live in a store from names to `Any`s, none before
the constructor of that name has run. A call of `set` whose constructor
throws is the action with no object. Types are compared by `==` on
`std::type_info`, so any type with decidable equality stands for them.
-/

namespace FFZKit.Util.AnyObject

open FFZKit.Foundations.Transition

/-- An object behind `_data` with the type whose deleter was stored with it. -/
structure Stored (Ty Obj : Type*) where
  object : Obj
  storedAs : Ty
  deriving DecidableEq, Repr

structure Any (Ty Obj : Type*) where
  type : Option Ty
  data : Option (Stored Ty Obj)
  deriving DecidableEq, Repr

variable {Name Ty Obj : Type*}

namespace Any

/-- `Any() = default` -/
def empty : Any Ty Obj := ⟨none, none⟩

/-- `set<T>(args...)`: the type is recorded before the constructor runs, which
may throw. -/
def setNew (a : Any Ty Obj) (T : Ty) (constructed : Option Obj) : Any Ty Obj :=
  let a := { a with type := some T }
  match constructed with
  | none => a
  | some object => { a with data := some ⟨object, T⟩ }

/-- `reset()` -/
def reset (_ : Any Ty Obj) : Any Ty Obj := ⟨none, none⟩

/-- `set(std::shared_ptr<T> data)` -/
def setPtr (a : Any Ty Obj) (T : Ty) (data : Option Obj) : Any Ty Obj :=
  match data with
  | some object => { a with type := some T, data := some ⟨object, T⟩ }
  | none => a.reset

/-- What a move leaves behind: `_type` is copied and `_data` is moved. -/
def movedFrom (a : Any Ty Obj) : Any Ty Obj := { a with data := none }

/-- `operator bool` -/
def hasValue (a : Any Ty Obj) : Bool := a.data.isSome

/-- `type_name()` -/
def typeName (demangle : Ty → String) (a : Any Ty Obj) : String :=
  match a.type with
  | none => ""
  | some T => demangle T

variable [DecidableEq Ty]

/-- `is<T>()` -/
def is (a : Any Ty Obj) (T : Ty) : Bool :=
  match a.type with
  | none => false
  | some U => T = U

/-- `get<T>(safe)` with the text of `std::invalid_argument` when it throws. -/
def get (demangle : Ty → String) (a : Any Ty Obj) (T : Ty) (safe : Bool) :
    Except String (Stored Ty Obj) :=
  match a.data with
  | none => .error "Any is empty"
  | some stored =>
      if safe && !a.is T then
        .error ("Any::get(): " ++ a.typeName demangle ++ " unable cast to " ++ demangle T)
      else .ok stored

end Any

/-- The recorded type is the type the object was stored as, or there is neither. -/
def Consistent (a : Any Ty Obj) : Prop := a.type = a.data.map Stored.storedAs

theorem consistent_iff_fields {a : Any Ty Obj} : Consistent a ↔
    (a.data = none ∧ a.type = none) ∨ ∃ d, a.data = some d ∧ a.type = some d.storedAs := by
  rw [Consistent]
  cases a.data with
  | none => simp
  | some d => simp

section TypeSafe

variable [DecidableEq Ty]

/-- What a user of an `Any` may rely on. -/
structure TypeSafe (demangle : Ty → String) (a : Any Ty Obj) : Prop where
  fields : (a.data = none ∧ a.type = none) ∨ ∃ d, a.data = some d ∧ a.type = some d.storedAs
  untyped : a.hasValue = false → (∀ T, a.is T = false) ∧ a.typeName demangle = ""
  is_get : ∀ T, a.is T = true → ∃ d, a.data = some d ∧ a.get demangle T true = .ok d
  get_stored : ∀ T d, a.get demangle T true = .ok d → a.data = some d ∧ d.storedAs = T

theorem typeSafe_iff (demangle : Ty → String) {a : Any Ty Obj} :
    TypeSafe demangle a ↔ Consistent a := by
  constructor
  · intro h
    exact consistent_iff_fields.mpr h.fields
  · intro h
    refine ⟨consistent_iff_fields.mp h, ?_, ?_, ?_⟩
    · intro hempty
      have hdata : a.data = none := by simpa [Any.hasValue] using hempty
      have htype : a.type = none := by rw [h, hdata, Option.map_none]
      exact ⟨fun T => by rw [Any.is, htype], by rw [Any.typeName, htype]⟩
    · intro T his
      cases hdata : a.data with
      | none =>
          have htype : a.type = none := by rw [h, hdata, Option.map_none]
          rw [Any.is, htype] at his
          cases his
      | some d => exact ⟨d, rfl, by simp [Any.get, hdata, his]⟩
    · intro T d hget
      cases hdata : a.data with
      | none =>
          rw [Any.get, hdata] at hget
          cases hget
      | some e =>
          have htype : a.type = some e.storedAs := by rw [h, hdata, Option.map_some]
          rw [Any.get, hdata] at hget
          cases his : a.is T with
          | false =>
              simp [his] at hget
          | true =>
              simp only [his, Bool.not_true, Bool.and_false, Bool.false_eq_true, if_false,
                Except.ok.injEq] at hget
              rw [Any.is, htype] at his
              exact ⟨by rw [hget], by rw [← hget]; exact (of_decide_eq_true his).symm⟩

end TypeSafe

/-- The `Any`s of a program. -/
abbrev Store (Name Ty Obj : Type*) := Name → Option (Any Ty Obj)

/-- The operations on `Any`s. -/
inductive Action (Name Ty Obj : Type*)
  | construct (i : Name)
  | copyConstruct (i j : Name)
  | moveConstruct (i j : Name)
  | setNew (i : Name) (T : Ty) (constructed : Option Obj)
  | setPtr (i : Name) (T : Ty) (data : Option Obj)
  | copyAssign (i j : Name)
  | moveAssign (i j : Name)
  | reset (i : Name)

/-- No `Any` has been constructed yet. -/
def noAny : Store Name Ty Obj := fun _ => none

/-- Every `Any` of the program is consistent. -/
def AllConsistent (s : Store Name Ty Obj) : Prop := ∀ i a, s i = some a → Consistent a

theorem allConsistent_noAny : AllConsistent (noAny : Store Name Ty Obj) := by
  intro i a h
  cases h

theorem consistent_movedFrom {a : Any Ty Obj} : Consistent a.movedFrom ↔ a.type = none := Iff.rfl

variable [DecidableEq Name]

/-- Replace the `Any` of one name. -/
def Store.put (s : Store Name Ty Obj) (i : Name) (a : Any Ty Obj) : Store Name Ty Obj :=
  Function.update s i (some a)

/-- One operation. A constructor needs a name that is not in use and the other
operations need one that is. Moving an `Any` to itself changes nothing. -/
def step (s : Store Name Ty Obj) : Action Name Ty Obj → Option (Store Name Ty Obj)
  | .construct i => if s i = none then some (s.put i .empty) else none
  | .copyConstruct i j =>
      match s i, s j with
      | none, some b => some (s.put i b)
      | _, _ => none
  | .moveConstruct i j =>
      match s i, s j with
      | none, some b => some ((s.put i b).put j b.movedFrom)
      | _, _ => none
  | .setNew i T constructed => (s i).map fun a => s.put i (a.setNew T constructed)
  | .setPtr i T data => (s i).map fun a => s.put i (a.setPtr T data)
  | .copyAssign i j =>
      match s i, s j with
      | some _, some b => some (s.put i b)
      | _, _ => none
  | .moveAssign i j =>
      match s i, s j with
      | some _, some b => if i = j then some s else some ((s.put i b).put j b.movedFrom)
      | _, _ => none
  | .reset i => (s i).map fun a => s.put i a.reset

/-- A throwing `set<T>` finds an object stored as `T`, and a move takes from an
`Any` without a recorded type or is a move to itself. -/
def Careful (s : Store Name Ty Obj) : Action Name Ty Obj → Prop
  | .setNew i T none => ∀ a, s i = some a → a.data.map Stored.storedAs = some T
  | .moveConstruct _ j => ∀ b, s j = some b → b.type = none
  | .moveAssign i j => i = j ∨ ∀ b, s j = some b → b.type = none
  | _ => True

/-- Replacing one `Any` keeps the others consistent. -/
theorem allConsistent_put {s : Store Name Ty Obj} (h : AllConsistent s) (i : Name)
    (a : Any Ty Obj) : AllConsistent (s.put i a) ↔ Consistent a := by
  constructor
  · intro hput
    exact hput i a (Function.update_self ..)
  · intro ha k b hb
    by_cases hk : k = i
    · rw [hk, Store.put, Function.update_self, Option.some.injEq] at hb
      rwa [← hb]
    · rw [Store.put, Function.update_of_ne hk] at hb
      exact h k b hb

/-- A move keeps the consistency of what has no recorded type. -/
theorem allConsistent_move {s : Store Name Ty Obj} (h : AllConsistent s) (i : Name) {j : Name}
    {b : Any Ty Obj} (hj : s j = some b) :
    AllConsistent ((s.put i b).put j b.movedFrom) ↔ b.type = none := by
  have hput := (allConsistent_put h i b).mpr (h j b hj)
  rw [allConsistent_put hput, consistent_movedFrom]

/-- An operation on consistent `Any`s leaves them consistent exactly when it is careful. -/
theorem step_consistent_iff {s s' : Store Name Ty Obj} {a : Action Name Ty Obj}
    (hstep : step s a = some s') (h : AllConsistent s) : AllConsistent s' ↔ Careful s a := by
  cases a with
  | construct i =>
      simp only [step, Option.ite_none_right_eq_some, Option.some.injEq] at hstep
      obtain ⟨-, rfl⟩ := hstep
      rw [allConsistent_put h]
      exact iff_of_true rfl trivial
  | copyConstruct i j =>
      simp only [step] at hstep
      split at hstep
      · rename_i b _ hj
        cases hstep
        rw [allConsistent_put h]
        exact iff_of_true (h j b hj) trivial
      · cases hstep
  | moveConstruct i j =>
      simp only [step] at hstep
      split at hstep
      · rename_i b _ hj
        cases hstep
        rw [allConsistent_move h i hj, Careful]
        simp [hj]
      · cases hstep
  | setNew i T constructed =>
      simp only [step, Option.map_eq_some_iff] at hstep
      obtain ⟨b, hi, rfl⟩ := hstep
      rw [allConsistent_put h]
      cases constructed with
      | none =>
          simp [Careful, hi, Any.setNew, Consistent, eq_comm]
      | some object => exact iff_of_true rfl trivial
  | setPtr i T data =>
      simp only [step, Option.map_eq_some_iff] at hstep
      obtain ⟨b, hi, rfl⟩ := hstep
      rw [allConsistent_put h]
      cases data with
      | none => exact iff_of_true rfl trivial
      | some object => exact iff_of_true rfl trivial
  | copyAssign i j =>
      simp only [step] at hstep
      split at hstep
      · rename_i a b _ hj
        cases hstep
        rw [allConsistent_put h]
        exact iff_of_true (h j b hj) trivial
      · cases hstep
  | moveAssign i j =>
      simp only [step] at hstep
      split at hstep
      · rename_i a b _ hj
        split at hstep
        · rename_i hij
          cases hstep
          exact iff_of_true h (Or.inl hij)
        · rename_i hij
          cases hstep
          rw [allConsistent_move h i hj, Careful]
          simp [hj, hij]
      · cases hstep
  | reset i =>
      simp only [step, Option.map_eq_some_iff] at hstep
      obtain ⟨b, hi, rfl⟩ := hstep
      rw [allConsistent_put h]
      exact iff_of_true rfl trivial

theorem allConsistent_of_run {as : List (Action Name Ty Obj)} {s t : Store Name Ty Obj}
    (run : Run step Careful s as t) (h : AllConsistent s) : AllConsistent t :=
  run.invariant (fun _ _ _ hcareful hstep hs => (step_consistent_iff hstep hs).mpr hcareful) h

/-- The `Any`s of a program are type safe after every operation exactly when
every operation is careful. -/
theorem any_typeSafe_iff [DecidableEq Ty] (demangle : Ty → String)
    {as : List (Action Name Ty Obj)} {t : Store Name Ty Obj} (run : Run step anyStep noAny as t) :
    (∀ front back u, as = front ++ back → Run step anyStep noAny front u →
      ∀ i a, u i = some a → TypeSafe demangle a) ↔ Run step Careful noAny as t := by
  constructor
  · intro hsafe
    have hconsistent : ∀ front back u, as = front ++ back → Run step anyStep noAny front u →
        AllConsistent u := fun front back u hsplit hfront i a ha =>
      (typeSafe_iff demangle).mp (hsafe front back u hsplit hfront i a ha)
    rcases run.guarded_or_broken with hcareful |
      ⟨front, a, back, u, u', rfl, hfront, hnot, hstep, -⟩
    · exact hcareful
    · have hbefore := hconsistent front (a :: back) u rfl hfront
      have hafter := hconsistent (front ++ [a]) back u' (by simp)
        (hfront.append (Run.single trivial hstep))
      exact absurd ((step_consistent_iff hstep hbefore).mp hafter) hnot
  · rintro hcareful front back u rfl hfront i a ha
    obtain ⟨u', hfront', -⟩ := hcareful.split
    obtain rfl := hfront.deterministic hfront'
    exact (typeSafe_iff demangle).mpr (allConsistent_of_run hfront' allConsistent_noAny i a ha)

/-- An object of type 1 is stored; then a constructor of type 2 throws. -/
def throwingSet : List (Action Nat Nat Nat) :=
  [.construct 0, .setNew 0 1 (some 7), .setNew 0 2 none]

/-- The checked `get` of type 2 then returns the object of type 1. -/
theorem any_confuses_throwingSet :
    ¬ ∀ (as : List (Action Nat Nat Nat)) (t : Store Nat Nat Nat), Run step anyStep noAny as t →
      ∀ i a, t i = some a → TypeSafe toString a := by
  intro h
  have run : Run step anyStep noAny throwingSet _ := run_of_exec rfl fun _ _ _ => trivial
  have hsafe := h throwingSet _ run 0 _ rfl
  have hstored := (hsafe.get_stored 2 ⟨7, 1⟩ rfl).2
  revert hstored
  decide

/-- A constructor throws where an object of its type is stored already, and a
move takes from an `Any` that was reset. -/
def sameTypeThrow : List (Action Nat Nat Nat) :=
  [.construct 0, .setNew 0 1 (some 7), .setNew 0 1 none, .copyConstruct 1 0, .reset 0,
    .moveAssign 1 0]

theorem any_typeSafe_iff_sameTypeThrow : ∃ t, exec step noAny sameTypeThrow = some t ∧
    ((∀ front back u, sameTypeThrow = front ++ back → Run step anyStep noAny front u →
      ∀ i a, u i = some a → TypeSafe toString a) ↔ Run step Careful noAny sameTypeThrow t) := by
  refine ⟨_, rfl, ?_⟩
  have run : Run step anyStep noAny sameTypeThrow _ := run_of_exec rfl fun _ _ _ => trivial
  exact any_typeSafe_iff toString run

end FFZKit.Util.AnyObject

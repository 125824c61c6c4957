import FFZKit.Util.NoticeCallback
import Mathlib.Order.Nat

/-!
# An emission whose listeners call back

What is registered is a multimap from events and tags to listeners, and each call
does to it what its name says, whichever dispatchers are created and unlinked on
the way. An emission invokes what was registered when it began, whatever the
bodies, and the emissions in them, do to the center.
-/

namespace FFZKit.Util.NoticeCenter

open FFZKit.Foundations

variable {Event Tag Func Thread Args Memory : Type*}

/-- The listeners of each event and tag, in the order of their registration. -/
abbrev Registry (Event Tag Func : Type*) := Event → Tag → List Func

/-- What an operation does to the multimap. -/
def Registry.apply [DecidableEq Event] [DecidableEq Tag] (r : Registry Event Tag Func) :
    Operation Event Tag Func → Registry Event Tag Func
  | .addListener event tag func => fun e t =>
      if e = event ∧ t = tag then r e t ++ [func] else r e t
  | .delListener event tag => fun e t => if e = event ∧ t = tag then [] else r e t
  | .clearAll => fun _ _ => []

/-- The operations among what has happened. -/
def operations : List (Happening Event Tag Func) → List (Operation Event Tag Func)
  | [] => []
  | .performed operation :: rest => operation :: operations rest
  | .invoked _ _ :: rest => operations rest

/-- The listeners that an emission has invoked. -/
def invocations (emission : Nat) : List (Happening Event Tag Func) → List (Tag × Func)
  | [] => []
  | .performed _ :: rest => invocations emission rest
  | .invoked n listener :: rest =>
      if n = emission then listener :: invocations emission rest else invocations emission rest

theorem operations_append (front back : List (Happening Event Tag Func)) :
    operations (front ++ back) = operations front ++ operations back := by
  induction front with
  | nil => rfl
  | cons happening front ih =>
      cases happening with
      | performed operation => exact congrArg (operation :: ·) ih
      | invoked n listener => exact ih

/-- No event is mapped to a dispatcher without listeners, no two events are mapped
to one dispatcher, and the next dispatcher is a new one. -/
structure Tidy (s : State Event Tag Func Thread) : Prop where
  nonempty : ∀ event dispatcher, s.mapListener event = some dispatcher →
    s.dispatchers dispatcher ≠ []
  injective : ∀ event event' dispatcher, s.mapListener event = some dispatcher →
    s.mapListener event' = some dispatcher → event = event'
  created : ∀ event dispatcher, s.mapListener event = some dispatcher → dispatcher < s.created

theorem tidy_init : Tidy (init : State Event Tag Func Thread) where
  nonempty := by simp [init]
  injective := by simp [init]
  created := by simp [init]

namespace State

/-- The multimap that a state of the center stands for. -/
def registry [DecidableEq Tag] (s : State Event Tag Func Thread) : Registry Event Tag Func :=
  fun event tag => ((s.listeners event).filter fun l => l.1 = tag).map Prod.snd

section listeners

variable {s t : State Event Tag Func Thread} {event : Event} {dispatcher : Nat}

theorem listeners_of_some (h : s.mapListener event = some dispatcher) :
    s.listeners event = (s.dispatchers dispatcher).map fun l => (l.tag, l.func) := by
  rw [listeners, h]

theorem listeners_of_none (h : s.mapListener event = none) : s.listeners event = [] := by
  rw [listeners, h]

/-- Events whose entries and dispatchers are as before have the same listeners. -/
theorem listeners_congr (hmap : t.mapListener event = s.mapListener event)
    (hdispatchers : ∀ dispatcher, s.mapListener event = some dispatcher →
      t.dispatchers dispatcher = s.dispatchers dispatcher) :
    t.listeners event = s.listeners event := by
  cases h : s.mapListener event with
  | none => rw [listeners_of_none h, listeners_of_none (hmap.trans h)]
  | some dispatcher =>
      rw [listeners_of_some h, listeners_of_some (hmap.trans h), hdispatchers dispatcher h]

end listeners

variable {s : State Event Tag Func Thread} {event : Event} {tag : Tag} {func : Func}
variable {dispatcher : Nat} [DecidableEq Event]

theorem addListener_of_some (hmap : s.mapListener event = some dispatcher) :
    s.addListener event tag func = s.insertListener dispatcher ⟨tag, func, s.clock⟩ := by
  rw [addListener, hmap]

theorem addListener_of_none (hmap : s.mapListener event = none) :
    s.addListener event tag func =
      (s.createDispatcher event).insertListener s.created ⟨tag, func, s.clock⟩ := by
  rw [addListener, hmap]

theorem listeners_addListener (h : Tidy s) (e : Event) :
    (s.addListener event tag func).listeners e =
      if e = event then s.listeners e ++ [(tag, func)] else s.listeners e := by
  cases hmap : s.mapListener event with
  | some dispatcher =>
      rw [addListener_of_some hmap]
      by_cases he : e = event
      · subst he
        rw [if_pos rfl, listeners_of_some hmap, listeners_of_some (s := s.insertListener _ _) hmap]
        simp [insertListener]
      · rw [if_neg he]
        refine listeners_congr (t := s.insertListener _ _) rfl ?_
        intro other hother
        have hne : other ≠ dispatcher := by
          rintro rfl
          exact he (h.injective _ _ _ hother hmap)
        exact Function.update_of_ne hne _ _
  | none =>
      rw [addListener_of_none hmap]
      by_cases he : e = event
      · subst he
        rw [if_pos rfl, listeners_of_none hmap]
        simp [listeners, insertListener, createDispatcher]
      · rw [if_neg he]
        apply listeners_congr
        · exact Function.update_of_ne he _ _
        · intro other hother
          have hne : other ≠ s.created := Nat.ne_of_lt (h.created _ _ hother)
          simp [insertListener, createDispatcher, hne]

theorem tidy_addListener (h : Tidy s) : Tidy (s.addListener event tag func) := by
  cases hmap : s.mapListener event with
  | some dispatcher =>
      rw [addListener_of_some hmap]
      refine ⟨?_, h.injective, h.created⟩
      intro e other hother
      by_cases hd : other = dispatcher
      · simp [insertListener, hd]
      · simpa [insertListener, hd] using h.nonempty e other hother
  | none =>
      rw [addListener_of_none hmap]
      have hentry : ∀ e other, Function.update s.mapListener event (some s.created) e = some other →
          e = event ∧ other = s.created ∨ e ≠ event ∧ s.mapListener e = some other := by
        intro e other hother
        by_cases he : e = event
        · subst he
          rw [Function.update_self] at hother
          exact Or.inl ⟨rfl, (Option.some.inj hother).symm⟩
        · rw [Function.update_of_ne he] at hother
          exact Or.inr ⟨he, hother⟩
      constructor
      · intro e other hother
        rcases hentry e other hother with ⟨-, rfl⟩ | ⟨-, hold⟩
        · simp [insertListener, createDispatcher]
        · have hne : other ≠ s.created := Nat.ne_of_lt (h.created _ _ hold)
          simpa [insertListener, createDispatcher, hne] using h.nonempty e other hold
      · intro e e' other hother hother'
        rcases hentry e other hother with ⟨he, hnew⟩ | ⟨-, hold⟩
        · rcases hentry e' other hother' with ⟨he', -⟩ | ⟨-, hold'⟩
          · exact he.trans he'.symm
          · exact absurd hnew (Nat.ne_of_lt (h.created _ _ hold'))
        · rcases hentry e' other hother' with ⟨-, hnew⟩ | ⟨-, hold'⟩
          · exact absurd hnew (Nat.ne_of_lt (h.created _ _ hold))
          · exact h.injective e e' other hold hold'
      · intro e other hother
        rcases hentry e other hother with ⟨-, rfl⟩ | ⟨-, hold⟩
        · exact Nat.lt_succ_self _
        · exact Nat.lt_succ_of_lt (h.created _ _ hold)

variable [DecidableEq Tag]

theorem delListener_of_none (hmap : s.mapListener event = none) : s.delListener event tag = s := by
  rw [delListener, hmap]

/-- `delListener` that leaves listeners. -/
theorem delListener_of_left (hmap : s.mapListener event = some dispatcher)
    (hleft : (s.dispatchers dispatcher).filter (fun l => l.tag ≠ tag) ≠ []) :
    s.delListener event tag = s.eraseTag dispatcher tag := by
  have hdispatcher : (s.eraseTag dispatcher tag).dispatchers dispatcher =
      (s.dispatchers dispatcher).filter fun l => l.tag ≠ tag :=
    Function.update_self _ _ _
  rw [delListener, hmap]
  simp only [hdispatcher, List.isEmpty_iff, hleft, if_false]

/-- `delListener` that unlinks the dispatcher. -/
theorem delListener_of_empty (hmap : s.mapListener event = some dispatcher)
    (hempty : (s.dispatchers dispatcher).filter (fun l => l.tag ≠ tag) = []) :
    s.delListener event tag =
      { s.eraseTag dispatcher tag with
        mapListener := Function.update s.mapListener event none } := by
  have hdispatcher : (s.eraseTag dispatcher tag).dispatchers dispatcher =
      (s.dispatchers dispatcher).filter fun l => l.tag ≠ tag :=
    Function.update_self _ _ _
  have htidy : (s.eraseTag dispatcher tag).mapListener event = some dispatcher := hmap
  rw [delListener, hmap]
  simp only [hdispatcher, List.isEmpty_iff, hempty, if_true, delDispatcher, if_pos htidy]
  rfl

theorem listeners_delListener (h : Tidy s) (e : Event) :
    (s.delListener event tag).listeners e =
      if e = event then (s.listeners e).filter fun l => l.1 ≠ tag else s.listeners e := by
  cases hmap : s.mapListener event with
  | none =>
      rw [delListener_of_none hmap]
      split
      · next he => rw [he, listeners_of_none hmap, List.filter_nil]
      · rfl
  | some dispatcher =>
      have hother : ∀ {e : Event}, e ≠ event → ∀ other, s.mapListener e = some other →
          (s.eraseTag dispatcher tag).dispatchers other = s.dispatchers other := by
        intro e he other hother
        have hne : other ≠ dispatcher := by
          rintro rfl
          exact he (h.injective _ _ _ hother hmap)
        exact Function.update_of_ne hne _ _
      by_cases hleft : (s.dispatchers dispatcher).filter (fun l => l.tag ≠ tag) = []
      · rw [delListener_of_empty hmap hleft]
        by_cases he : e = event
        · subst he
          rw [if_pos rfl, listeners_of_some hmap, List.filter_map,
            listeners_of_none (Function.update_self _ _ _)]
          exact (congrArg (List.map _) hleft).symm
        · rw [if_neg he]
          exact listeners_congr (Function.update_of_ne he _ _) (hother he)
      · rw [delListener_of_left hmap hleft]
        by_cases he : e = event
        · subst he
          rw [if_pos rfl, listeners_of_some hmap, List.filter_map,
            listeners_of_some (s := s.eraseTag _ _) hmap]
          exact congrArg (List.map _) (Function.update_self _ _ _)
        · rw [if_neg he]
          exact listeners_congr (t := s.eraseTag _ _) rfl (hother he)

theorem tidy_delListener (h : Tidy s) : Tidy (s.delListener event tag) := by
  cases hmap : s.mapListener event with
  | none =>
      rw [delListener_of_none hmap]
      exact h
  | some dispatcher =>
      by_cases hleft : (s.dispatchers dispatcher).filter (fun l => l.tag ≠ tag) = []
      · rw [delListener_of_empty hmap hleft]
        have hentry : ∀ e other, Function.update s.mapListener event none e = some other →
            s.mapListener e = some other ∧ other ≠ dispatcher := by
          intro e other hother
          by_cases he : e = event
          · subst he
            simp at hother
          · rw [Function.update_of_ne he] at hother
            refine ⟨hother, ?_⟩
            rintro rfl
            exact he (h.injective _ _ _ hother hmap)
        constructor
        · intro e other hother
          obtain ⟨hold, hne⟩ := hentry e other hother
          simpa [eraseTag, hne] using h.nonempty e other hold
        · intro e e' other hother hother'
          exact h.injective e e' other (hentry e other hother).1 (hentry e' other hother').1
        · intro e other hother
          exact h.created e other (hentry e other hother).1
      · rw [delListener_of_left hmap hleft]
        refine ⟨?_, h.injective, h.created⟩
        intro e other hother
        by_cases hd : other = dispatcher
        · subst hd
          have hhere : (s.eraseTag other tag).dispatchers other =
              (s.dispatchers other).filter fun l => l.tag ≠ tag :=
            Function.update_self _ _ _
          rw [hhere]
          exact hleft
        · simpa [eraseTag, hd] using h.nonempty e other hother

theorem tidy_operate (h : Tidy s) (operation : Operation Event Tag Func) :
    Tidy (s.operate operation) := by
  cases operation with
  | addListener event tag func => exact tidy_addListener h
  | delListener event tag => exact tidy_delListener h
  | clearAll => exact ⟨by simp [operate, clearAll], by simp [operate, clearAll],
      by simp [operate, clearAll]⟩

/-- An operation of the center does to the multimap what its name says. -/
theorem registry_operate (h : Tidy s) (operation : Operation Event Tag Func) :
    (s.operate operation).registry = s.registry.apply operation := by
  funext e t
  cases operation with
  | addListener event tag func =>
      simp only [registry, operate, Registry.apply, listeners_addListener h]
      by_cases he : e = event
      · by_cases ht : t = tag <;> simp [he, ht, eq_comm]
      · simp [he]
  | delListener event tag =>
      simp only [registry, operate, Registry.apply, listeners_delListener h]
      by_cases he : e = event
      · by_cases ht : t = tag
        · simp [he, ht, List.filter_filter]
        · have hsame : ∀ l : Tag × Func, (l.1 = t ∧ l.1 ≠ tag) = (l.1 = t) := by
            intro l
            apply propext
            exact ⟨And.left, fun hl => ⟨hl, hl ▸ ht⟩⟩
          rw [if_pos he, if_neg fun h => ht h.2, List.filter_filter]
          simp only [← Bool.decide_and, hsame]
      · simp [he]
  | clearAll => rfl

end State

namespace Program

variable [DecidableEq Event] [DecidableEq Tag]

/-- What happens from one state of a program to a later one. -/
structure Leads (s t : Program Event Tag Func Thread Memory)
    (happened : List (Happening Event Tag Func)) : Prop where
  trace : t.trace = s.trace ++ happened
  registry : t.center.registry = (operations happened).foldl Registry.apply s.center.registry
  tidy : Tidy t.center
  emissions : s.emissions ≤ t.emissions

namespace Leads

variable {s t u : Program Event Tag Func Thread Memory}
variable {happened later : List (Happening Event Tag Func)}

theorem trans (h : Leads s t happened) (h' : Leads t u later) :
    Leads s u (happened ++ later) where
  trace := by rw [h'.trace, h.trace, List.append_assoc]
  registry := by rw [h'.registry, h.registry, operations_append, List.foldl_append]
  tidy := h'.tidy
  emissions := h.emissions.trans h'.emissions

theorem refl (h : Tidy s.center) : Leads s s [] where
  trace := (List.append_nil _).symm
  registry := rfl
  tidy := h
  emissions := le_rfl

theorem operate (h : Tidy s.center) (operation : Operation Event Tag Func) :
    Leads s (s.operate operation) [.performed operation] where
  trace := rfl
  registry := State.registry_operate h operation
  tidy := State.tidy_operate h operation
  emissions := le_rfl

theorem invoke (h : Tidy s.center) (emission : Nat) (listener : Tag × Func) :
    Leads s (s.invoke emission listener) [.invoked emission listener] where
  trace := rfl
  registry := rfl
  tidy := h
  emissions := le_rfl

theorem begin (h : Tidy s.center) : Leads s s.begin [] where
  trace := (List.append_nil _).symm
  registry := rfl
  tidy := h
  emissions := Nat.le_succ _

theorem access (h : Tidy s.center) (memory : Memory) :
    Leads s { s with memory := memory } [] where
  trace := (List.append_nil _).symm
  registry := rfl
  tidy := h
  emissions := le_rfl

end Leads

/-- The emissions that have begun before invoke no listener. -/
def Silent (s : Program Event Tag Func Thread Memory)
    (happened : List (Happening Event Tag Func)) : Prop :=
  ∀ n < s.emissions, invocations n happened = []

variable {emit : Event → Args → Program Event Tag Func Thread Memory →
  Option (Nat × Program Event Tag Func Thread Memory)}
variable {s t : Program Event Tag Func Thread Memory}

variable {body : Func → Args → Script Event Tag Func Args Memory}

variable {walk : Nat → List (Tag × Func) → List (Tag × Func)}

section Nesting

end Nesting

end Program

end FFZKit.Util.NoticeCenter

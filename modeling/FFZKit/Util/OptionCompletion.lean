import FFZKit.Util.OptionParse
import FFZKit.Foundations.MapList
import Mathlib.Data.List.Induction
import Mathlib.Tactic.Common

/-!
# What the callback of a command can rely on

The loop over the results of `getopt_long` keeps, for each long name, the first
argument given for it. When `_on_completed` is called, every result had its
handler called with success, and the options with a default and those that must
exist have their keys.
-/

namespace FFZKit.Util.CommandParser

open FFZKit.Foundations
open Std (ExtTreeMap)

variable {Cb : Type*} (s : CommandParser Cb) (answer : Answer Cb)

/-- What `getopt_long` answers to the tables of the parser. -/
def results (getoptLong : List UInt8 → List LongOption → List GetoptResult) :
    List GetoptResult :=
  getoptLong s.shortOptions s.longOptions

/-- The argument that a result gives for a long name. -/
def argFor (key : String) (result : GetoptResult) : Option String :=
  (s.registry.lookup result.index).bind fun option =>
    if option.longOpt = key then some (result.optarg.getD "") else none

/-- The argument of the first occurrence of a long name. -/
def firstArg (results : List GetoptResult) (key : String) : Option String :=
  results.findSome? (s.argFor key)

/-- The default for a long name. -/
def defaultOf (key : String) : Option String :=
  s.options.findSome? fun option => if option.longOpt = key then option.cb.defaultValue else none

/-- Every result was that of a registered option, whose handler was called and
returned true; the second list is that of the calls. -/
inductive Accepts : List GetoptResult → List (HandlerCall Cb) → Prop
  | nil : Accepts [] []
  | snoc {results calls result option} (front : Accepts results calls)
      (found : s.registry.lookup result.index = some option)
      (returned : option.invoke answer calls
        ((s.firstArg (results ++ [result]) option.longOpt).getD "") = .returns true) :
      Accepts (results ++ [result])
        (calls ++ [(option, (s.firstArg (results ++ [result]) option.longOpt).getD "")])

/-- What holds when `_on_completed` is called. -/
structure Complete (results : List GetoptResult) (calls : List (HandlerCall Cb))
    (allArgs : ExtTreeMap String String compare) : Prop where
  keys : ∀ key ∈ allArgs, ∃ (index : Nat) (option : CmdOption (OptionBody Cb)),
    s.registry.mapOptions[index]? = some option ∧ option.longOpt = key
  present : ∀ (index : Nat) (option : CmdOption (OptionBody Cb)),
    s.registry.mapOptions[index]? = some option →
      option.cb.defaultValue.isSome ∨ option.cb.mustExist = true → option.longOpt ∈ allArgs
  values : ∀ key : String, allArgs[key]? = (s.firstArg results key).or (s.defaultOf key)
  accepted : s.Accepts answer results calls

section Options

variable {s}

theorem mem_options {option : CmdOption (OptionBody Cb)} :
    option ∈ s.options ↔ ∃ index : Nat, s.registry.mapOptions[index]? = some option := by
  simp only [options, List.mem_map, Prod.exists, ExtTreeMap.mem_toList_iff_getElem?_eq_some,
    exists_eq_right]

theorem lookup_mem_options {index : Nat} {option : CmdOption (OptionBody Cb)}
    (h : s.registry.lookup index = some option) : option ∈ s.options := by
  rw [OptionParser.lookup] at h
  split at h
  · split at h
    · cases h
    · exact mem_options.mpr ⟨_, h⟩
  · exact mem_options.mpr ⟨_, h⟩

/-- A name that was given is that of an option. -/
theorem exists_of_firstArg {results : List GetoptResult} {key value : String}
    (h : s.firstArg results key = some value) : ∃ option ∈ s.options, option.longOpt = key := by
  obtain ⟨result, _, harg⟩ := List.exists_of_findSome?_eq_some h
  obtain ⟨option, hfound, hname⟩ := Option.bind_eq_some_iff.mp harg
  refine ⟨option, lookup_mem_options hfound, ?_⟩
  by_contra hne
  rw [if_neg hne] at hname
  cases hname

theorem exists_of_defaultOf {key value : String} (h : s.defaultOf key = some value) :
    ∃ option ∈ s.options, option.longOpt = key := by
  obtain ⟨option, hmem, hdefault⟩ := List.exists_of_findSome?_eq_some h
  refine ⟨option, hmem, ?_⟩
  by_contra hne
  rw [if_neg hne] at hdefault
  cases hdefault

theorem defaultOf_isSome {option : CmdOption (OptionBody Cb)} (hmem : option ∈ s.options)
    (hdefault : option.cb.defaultValue.isSome) : (s.defaultOf option.longOpt).isSome := by
  rw [defaultOf, List.findSome?_isSome_iff]
  exact ⟨option, hmem, by rwa [if_pos rfl]⟩

/-- The pass over the defaults fills in what was not given. -/
theorem getElem?_addDefaults (allArgs : ExtTreeMap String String compare) (key : String) :
    (s.addDefaults allArgs)[key]? = (allArgs[key]?).or (s.defaultOf key) := by
  rw [addDefaults, defaultOf]
  induction s.options generalizing allArgs with
  | nil => simp
  | cons option options ih =>
      rw [List.foldl_cons, ih, List.findSome?_cons]
      cases hdefault : option.cb.defaultValue with
      | none => simp
      | some value =>
          have hinsert : (if option.longOpt ∈ allArgs then allArgs
              else allArgs.insertIfNew option.longOpt value)[key]? =
                (allArgs.insertIfNew option.longOpt value)[key]? := by
            split
            · rename_i hmem
              rw [ExtTreeMap.getElem?_insertIfNew, if_neg fun h => h.2 hmem]
            · rfl
          simp only [hinsert]
          rw [getElem?_insertIfNew_eq_or, Option.or_assoc]
          by_cases hkey : option.longOpt = key
          · rw [if_pos hkey, Option.some_or]
          · rw [if_neg hkey, Option.none_or]

end Options

section Loop

variable {s} {answer} {front : List GetoptResult} {st : ParseState Cb}

/-- `all_args` holds the first arguments. -/
def Holds (s : CommandParser Cb) (front : List GetoptResult) (st : ParseState Cb) : Prop :=
  ∀ key : String, st.allArgs[key]? = s.firstArg front key

/-- An argument is stored when its name has none yet. -/
theorem Holds.insertIfNew (h : s.Holds front st) {result : GetoptResult}
    {option : CmdOption (OptionBody Cb)} (hfound : s.registry.lookup result.index = some option)
    (key : String) :
    (st.allArgs.insertIfNew option.longOpt (result.optarg.getD ""))[key]? =
      s.firstArg (front ++ [result]) key := by
  rw [getElem?_insertIfNew_eq_or, h key, firstArg, firstArg, List.findSome?_append,
    List.findSome?_singleton, argFor, hfound, Option.bind_some]

/-- The turn of a result whose option is found: the handler is called with what
is stored, and the loop goes on when it returns true. -/
theorem turn_of_lookup (h : s.Holds front st) {result : GetoptResult}
    {option : CmdOption (OptionBody Cb)} (hfound : s.registry.lookup result.index = some option) :
    s.turn answer st result =
      let arg := (s.firstArg (front ++ [result]) option.longOpt).getD ""
      let called : ParseState Cb :=
        ⟨st.allArgs.insertIfNew option.longOpt (result.optarg.getD ""),
          st.calls ++ [(option, arg)]⟩
      match option.invoke answer st.calls arg with
      | .throws => .error (called, .handlerThrows)
      | .returns false => .error (called, .stopped)
      | .returns true => .ok called := by
  rw [← h.insertIfNew hfound, turn]
  split
  · rename_i hnone
    cases hnone.symm.trans hfound
  · rename_i hsome
    cases hsome.symm.trans hfound
    rfl

/-- The loop goes through a list of results exactly when they are accepted. -/
theorem loop_ok (results : List GetoptResult) (hloop :
    results.foldlM (s.turn answer) ⟨∅, []⟩ = .ok st) :
    s.Accepts answer results st.calls ∧ s.Holds results st := by
  induction results using List.reverseRecOn generalizing st with
  | nil =>
      obtain rfl := Except.ok.inj hloop
      exact ⟨Accepts.nil, fun key => by simp [firstArg]⟩
  | append_singleton front result ih =>
      rw [List.foldlM_append] at hloop
      cases hfront : front.foldlM (s.turn answer) ⟨∅, []⟩ with
      | error stop => rw [hfront] at hloop; cases hloop
      | ok before =>
          obtain ⟨haccepts, hholds⟩ := ih hfront
          rw [hfront] at hloop
          have hturn : s.turn answer before result = .ok st := by
            cases hlast : s.turn answer before result with
            | error stop => simp [bind, Except.bind, hlast] at hloop
            | ok st' => simpa [bind, Except.bind, pure, Except.pure, hlast] using hloop
          cases hfound : s.registry.lookup result.index with
          | none => rw [turn, hfound] at hturn; cases hturn
          | some option =>
              rw [turn_of_lookup hholds hfound] at hturn
              simp only at hturn
              split at hturn
              · cases hturn
              · cases hturn
              · rename_i hreturned
                obtain rfl := Except.ok.inj hturn
                exact ⟨Accepts.snoc haccepts hfound hreturned, hholds.insertIfNew hfound⟩

theorem Accepts.loop {calls : List (HandlerCall Cb)} (h : s.Accepts answer front calls) :
    ∃ st, front.foldlM (s.turn answer) ⟨∅, []⟩ = .ok st ∧ st.calls = calls := by
  induction h with
  | nil => exact ⟨⟨∅, []⟩, rfl, rfl⟩
  | @snoc front calls result option _ hfound hreturned ih =>
      obtain ⟨st, hfront, rfl⟩ := ih
      have hholds := (loop_ok front hfront).2
      have hturn := @turn_of_lookup _ _ answer _ _ hholds _ _ hfound
      simp only [hreturned] at hturn
      refine ⟨⟨st.allArgs.insertIfNew option.longOpt (result.optarg.getD ""),
        st.calls ++ [(option, (s.firstArg (front ++ [result]) option.longOpt).getD "")]⟩, ?_, rfl⟩
      rw [List.foldlM_append, hfront]
      change (s.turn answer st result >>= pure) = _
      rw [hturn]
      rfl

/-- A result of no option ends the loop where it stands. -/
theorem Accepts.loop_unrecognized {calls : List (HandlerCall Cb)}
    (h : s.Accepts answer front calls) {result : GetoptResult} (back : List GetoptResult)
    (hlookup : s.registry.lookup result.index = none) :
    ∃ st, (front ++ result :: back).foldlM (s.turn answer) ⟨∅, []⟩ =
      .error (st, .throws unrecognizedOption) := by
  obtain ⟨st, hfront, -⟩ := h.loop
  have hturn : s.turn answer st result = .error (st, .throws unrecognizedOption) := by
    rw [turn, hlookup]
  refine ⟨st, ?_⟩
  rw [List.foldlM_append, hfront]
  change (result :: back).foldlM (s.turn answer) st = _
  rw [List.foldlM_cons, hturn]
  rfl

/-- The loop itself never calls `_on_completed`. -/
theorem loop_error {results : List GetoptResult} {stop : ParseState Cb × ParseEnd}
    (hloop : results.foldlM (s.turn answer) st = .error stop)
    (args : ExtTreeMap String String compare) : stop.2 ≠ .completed args := by
  induction results generalizing st with
  | nil => cases hloop
  | cons result results ih =>
      rw [List.foldlM_cons] at hloop
      cases hturn : s.turn answer st result with
      | ok st' =>
          rw [hturn] at hloop
          exact ih hloop
      | error stop' =>
          rw [hturn] at hloop
          obtain rfl := Except.error.inj hloop
          rw [turn] at hturn
          split at hturn
          · cases hturn
            exact ParseEnd.noConfusion
          · simp only at hturn
            split at hturn <;> cases hturn <;> exact ParseEnd.noConfusion

/-- A loop that stops ends the run. -/
theorem run_of_stop {getoptLong : List UInt8 → List LongOption → List GetoptResult}
    {stop : ParseState Cb × ParseEnd}
    (hloop : (s.results getoptLong).foldlM (s.turn answer) ⟨∅, []⟩ = .error stop) :
    s.run getoptLong answer = stop := by
  rw [results] at hloop
  rw [run, hloop]

/-- After the loop come the defaults and the checks. -/
theorem run_of_loop {getoptLong : List UInt8 → List LongOption → List GetoptResult}
    (hloop : (s.results getoptLong).foldlM (s.turn answer) ⟨∅, []⟩ = .ok st) :
    s.run getoptLong answer =
      (⟨s.addDefaults st.allArgs, st.calls⟩, s.finish (s.addDefaults st.allArgs)) := by
  rw [results] at hloop
  rw [run, hloop]

end Loop

section Finish

variable {s} {allArgs args : ExtTreeMap String String compare}

/-- `_on_completed` is called when every option that must exist is there. -/
theorem finish_completed (h : s.finish allArgs = .completed args) :
    args = allArgs ∧
      ∀ option ∈ s.options, option.cb.mustExist = true → option.longOpt ∈ allArgs := by
  rw [finish] at h
  split at h
  · cases h
  · rename_i hfind
    split at h
    · cases h
    · split at h
      · refine ⟨(ParseEnd.completed.inj h).symm, fun option hmem hmust => ?_⟩
        have hnone := List.find?_eq_none.mp hfind option hmem
        rw [hmust, Bool.true_and, Bool.not_eq_true, Bool.not_eq_false',
          ExtTreeMap.contains_iff_mem] at hnone
        exact hnone
      · cases h

/-- An option that must exist and is missing makes the parser throw. -/
theorem finish_missing {option : CmdOption (OptionBody Cb)} (hmem : option ∈ s.options)
    (hmust : option.cb.mustExist = true) (hmissing : option.longOpt ∉ allArgs) :
    ∃ missing ∈ s.options, missing.cb.mustExist = true ∧ missing.longOpt ∉ allArgs ∧
      s.finish allArgs = .throws (mustProvide missing.longOpt) := by
  rw [finish]
  cases hfind : s.options.find? fun option =>
      option.cb.mustExist && !allArgs.contains option.longOpt with
  | none =>
      have hnone := List.find?_eq_none.mp hfind option hmem
      simp [hmust, hmissing] at hnone
  | some missing =>
      have hfound := List.find?_some hfind
      rw [Bool.and_eq_true, Bool.not_eq_true', ← Bool.not_eq_true,
        ExtTreeMap.contains_iff_mem] at hfound
      exact ⟨missing, List.mem_of_find?_eq_some hfind, hfound.1, hfound.2, rfl⟩

end Finish

section Run

variable {s} {answer} {getoptLong : List UInt8 → List LongOption → List GetoptResult}

theorem mem_addDefaults_iff {front : List GetoptResult} {st : ParseState Cb}
    (h : s.Holds front st) (key : String) :
    key ∈ s.addDefaults st.allArgs ↔
      ((s.firstArg front key).or (s.defaultOf key)).isSome = true := by
  rw [ExtTreeMap.mem_iff_isSome_getElem?, getElem?_addDefaults, h key]

theorem run_completed {args : ExtTreeMap String String compare}
    (hend : (s.run getoptLong answer).2 = .completed args) :
    s.Complete answer (s.results getoptLong) (s.run getoptLong answer).1.calls args := by
  cases hloop : (s.results getoptLong).foldlM (s.turn answer) ⟨∅, []⟩ with
  | error stop =>
      rw [run_of_stop hloop] at hend
      exact absurd hend (loop_error hloop args)
  | ok st =>
      obtain ⟨haccepts, hholds⟩ := loop_ok _ hloop
      rw [run_of_loop hloop] at hend ⊢
      obtain ⟨rfl, hmust⟩ := finish_completed hend
      refine ⟨fun key hkey => ?_, fun index option hoption hhas => ?_, fun key => ?_, haccepts⟩
      · obtain ⟨value, hvalue⟩ :=
          Option.isSome_iff_exists.mp ((mem_addDefaults_iff hholds key).mp hkey)
        have hnamed : ∃ option ∈ s.options, option.longOpt = key := by
          rcases Option.or_eq_some_iff.mp hvalue with hfirst | ⟨-, hdefault⟩
          · exact exists_of_firstArg hfirst
          · exact exists_of_defaultOf hdefault
        obtain ⟨option, hmem, hname⟩ := hnamed
        obtain ⟨index, hindex⟩ := mem_options.mp hmem
        exact ⟨index, option, hindex, hname⟩
      · have hmem : option ∈ s.options := mem_options.mpr ⟨index, hoption⟩
        rcases hhas with hdefault | hflag
        · rw [mem_addDefaults_iff hholds, Option.isSome_or, defaultOf_isSome hmem hdefault,
            Bool.or_true]
        · exact hmust option hmem hflag
      · rw [getElem?_addDefaults, hholds key]

/-- A result of no option, before any handler stops the loop, makes the parser throw. -/
theorem run_unrecognized {front back : List GetoptResult} {result : GetoptResult}
    {calls : List (HandlerCall Cb)} (hresults : s.results getoptLong = front ++ result :: back)
    (haccepts : s.Accepts answer front calls)
    (hlookup : s.registry.lookup result.index = none) :
    (s.run getoptLong answer).2 = .throws unrecognizedOption := by
  obtain ⟨st, hloop⟩ := haccepts.loop_unrecognized back hlookup
  rw [← hresults] at hloop
  rw [run_of_stop hloop]

/-- An option that must exist, was not given and has no default makes it throw. -/
theorem run_missing {calls : List (HandlerCall Cb)} {index : Nat}
    {option : CmdOption (OptionBody Cb)}
    (haccepts : s.Accepts answer (s.results getoptLong) calls)
    (hoption : s.registry.mapOptions[index]? = some option)
    (hmust : option.cb.mustExist = true)
    (hmissing : (s.firstArg (s.results getoptLong) option.longOpt).or
      (s.defaultOf option.longOpt) = none) :
    ∃ missing ∈ s.options, missing.cb.mustExist = true ∧
      (s.firstArg (s.results getoptLong) missing.longOpt).or
        (s.defaultOf missing.longOpt) = none ∧
      (s.run getoptLong answer).2 = .throws (mustProvide missing.longOpt) := by
  obtain ⟨st, hloop, -⟩ := haccepts.loop
  obtain ⟨-, hholds⟩ := loop_ok _ hloop
  have hnotMem : option.longOpt ∉ s.addDefaults st.allArgs := by
    rw [mem_addDefaults_iff hholds, hmissing]
    exact Bool.false_ne_true
  obtain ⟨missing, hmem, hflag, hnot, hfinish⟩ :=
    finish_missing (mem_options.mpr ⟨index, hoption⟩) hmust hnotMem
  rw [mem_addDefaults_iff hholds, Option.not_isSome_iff_eq_none] at hnot
  refine ⟨missing, hmem, hflag, hnot, ?_⟩
  rw [run_of_loop hloop, hfinish]

end Run

/-- The guarantee to a command, and the two ways in which it is not called. -/
theorem run_guarantee (s : CommandParser Cb)
    (getoptLong : List UInt8 → List LongOption → List GetoptResult) (answer : Answer Cb) :
    (∀ args, (s.run getoptLong answer).2 = .completed args →
      s.Complete answer (s.results getoptLong) (s.run getoptLong answer).1.calls args) ∧
    (∀ front result back calls, s.results getoptLong = front ++ result :: back →
      s.Accepts answer front calls → s.registry.lookup result.index = none →
        (s.run getoptLong answer).2 = .throws unrecognizedOption) ∧
    (∀ (calls : List (HandlerCall Cb)) (index : Nat) (option : CmdOption (OptionBody Cb)),
      s.Accepts answer (s.results getoptLong) calls →
      s.registry.mapOptions[index]? = some option → option.cb.mustExist = true →
      (s.firstArg (s.results getoptLong) option.longOpt).or (s.defaultOf option.longOpt) = none →
        ∃ missing ∈ s.options, missing.cb.mustExist = true ∧
          (s.firstArg (s.results getoptLong) missing.longOpt).or
            (s.defaultOf missing.longOpt) = none ∧
          (s.run getoptLong answer).2 = .throws (mustProvide missing.longOpt)) :=
  ⟨fun _ hend => run_completed hend,
    fun _ _ _ _ hresults haccepts hlookup => run_unrecognized hresults haccepts hlookup,
    fun _ _ _ haccepts hoption hmust hmissing => run_missing haccepts hoption hmust hmissing⟩

/-- The option for help, and a port that must be given. -/
def portParser : CommandParser Unit where
  registry := (OptionParser.init ⟨false, .argNone, "", none, none⟩).add
    (makeOption 'p'.toUInt8 "port" .argRequired none true "" (some ()))
  enableEmptyArgs := true
  hasOnCompleted := true

theorem run_portParser :
    (portParser.run (fun _ _ => [⟨112, some "80"⟩]) fun _ _ _ => .returns true).2 =
      .completed ((∅ : ExtTreeMap String String compare).insertIfNew "port" "80") := by
  have hlookup : portParser.registry.lookup 112 =
      some (makeOption 'p'.toUInt8 "port" .argRequired none true "" (some ())) := rfl
  have hoptions : portParser.options = [⟨'h'.toUInt8, "help", ⟨false, .argNone, "", none, none⟩⟩,
      makeOption 'p'.toUInt8 "port" .argRequired none true "" (some ())] := rfl
  have hcallback : portParser.hasOnCompleted = true := rfl
  simp [run, turn, hlookup, CmdOption.invoke, addDefaults, finish, hoptions, makeOption, bind,
    Except.bind, pure, Except.pure, hcallback]

theorem run_guarantee_port : ∃ calls, portParser.Complete (fun _ _ _ => .returns true)
    [⟨112, some "80"⟩] calls ((∅ : ExtTreeMap String String compare).insertIfNew "port" "80") :=
  ⟨_, (run_guarantee portParser (fun _ _ => [⟨112, some "80"⟩]) fun _ _ _ => .returns true).1
    _ run_portParser⟩

end FFZKit.Util.CommandParser

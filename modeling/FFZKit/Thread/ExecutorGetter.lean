import FFZKit.Foundations.FirstLeast
import Mathlib.Data.List.Rotate
import Mathlib.Data.Int.Order.Basic

/-!
# `TaskExecutorGetterImp`

`getExecutor` goes around the executors once, starting behind `thread_pos_`, and
remembers the one whose load is least. It stops as soon as a load is 0, and the
next call goes on from there.

## Implementation notes

The loads during one call are a function of the executor; `load` is documented to
return 0 to 100, and the results only ask that it is not negative. An entry of
`threads_` may be null; a call that dereferences a null pointer has no result.
`poller` gives the executor that `addPoller` makes for a name, and `cpus` is what
`hardware_concurrency` returns. The `int` that counts the iterations is a natural
number: each executor is a thread, and there are fewer than `2 ^ 31`.
-/

namespace FFZKit.Thread.ExecutorGetter

open FFZKit.Foundations

variable {Executor : Type*}

structure TaskExecutorGetterImp (Executor : Type*) where
  threads_ : List (Option Executor)
  thread_pos_ : Nat
  deriving DecidableEq, Repr

namespace TaskExecutorGetterImp

/-- A position past the end starts over. -/
def wrap (threads : List (Option Executor)) (pos : Nat) : Nat :=
  if threads.length ≤ pos then 0 else pos

/-- The loop of `getExecutor`: the position it stops at, and the executor found. -/
def scan (load : Executor → Int) (threads : List (Option Executor)) :
    Nat → Nat → Executor → Int → Nat × Executor
  | 0, thread_pos, executor_min_load, _ => (thread_pos, executor_min_load)
  | i + 1, thread_pos, executor_min_load, min_load =>
      let thread_pos := wrap threads (thread_pos + 1)
      match threads[thread_pos]?.join with
      | none => scan load threads i thread_pos executor_min_load min_load
      | some executor =>
          let found :=
            if load executor < min_load then (executor, load executor)
            else (executor_min_load, min_load)
          if found.2 = 0 then (thread_pos, found.1)
          else scan load threads i thread_pos found.1 found.2

/-- The executor returned, or null, and the state after the call. -/
def getExecutor (load : Executor → Int) (s : TaskExecutorGetterImp Executor) :
    Option (Option Executor × TaskExecutorGetterImp Executor) :=
  if s.threads_.isEmpty then some (none, s)
  else
    let thread_pos := wrap s.threads_ s.thread_pos_
    match s.threads_[thread_pos]?.join with
    | none => none
    | some executor =>
        let found := scan load s.threads_ s.threads_.length thread_pos executor (load executor)
        some (some found.2, { s with thread_pos_ := found.1 })

/-- Calls one after the other, each with the loads during it. -/
def getExecutors (s : TaskExecutorGetterImp Executor) : List (Executor → Int) →
    Option (List (Option Executor) × TaskExecutorGetterImp Executor)
  | [] => some ([], s)
  | load :: loads =>
      match getExecutor load s with
      | none => none
      | some (executor, t) =>
          match getExecutors t loads with
          | none => none
          | some (executors, u) => some (executor :: executors, u)

/-- The executors are appended and their number is returned. There is none when
the remainder by the number of processors is not defined. -/
def addPoller (cpus : Nat) (poller : String → Executor) (name : String) (size : Nat)
    (s : TaskExecutorGetterImp Executor) : Option (Nat × TaskExecutorGetterImp Executor) :=
  let size := if 0 < size then size else cpus
  if cpus = 0 ∧ 0 < size then none
  else
    some (size, { s with
      threads_ := s.threads_ ++
        (List.range size).map fun i => some (poller (name ++ "-" ++ toString i)) })

/-- A getter whose executors are not null. -/
def of (threads : List Executor) (pos : Nat) : TaskExecutorGetterImp Executor where
  threads_ := threads.map some
  thread_pos_ := pos

/-- `addPoller` keeps the executors from being null. -/
theorem addPoller_of {cpus size n : Nat} {poller : String → Executor} {name : String}
    {threads : List Executor} {pos : Nat} {s : TaskExecutorGetterImp Executor}
    (h : addPoller cpus poller name size (of threads pos) = some (n, s)) :
    ∃ pollers, s = of (threads ++ pollers) pos ∧ pollers.length = n := by
  simp only [addPoller] at h
  generalize (if 0 < size then size else cpus) = count at h
  by_cases hcpus : cpus = 0 ∧ 0 < count
  · rw [if_pos hcpus] at h
    cases h
  · rw [if_neg hcpus] at h
    obtain ⟨rfl, rfl⟩ := Prod.ext_iff.mp (Option.some.inj h)
    refine ⟨(List.range count).map fun i => poller (name ++ "-" ++ toString i), ?_, by simp⟩
    simp [of, Function.comp_def]

variable {load : Executor → Int} {threads : List Executor} {pos : Nat}

theorem wrap_lt (hne : threads ≠ []) (pos : Nat) :
    wrap (threads.map some) pos < threads.length := by
  have hlength := List.length_pos_iff.mpr hne
  rw [wrap, List.length_map]
  split <;> omega

theorem wrap_of_lt (hpos : pos < threads.length) : wrap (threads.map some) pos = pos := by
  rw [wrap, List.length_map, if_neg (by omega)]

theorem rotate_wrap (hpos : pos < threads.length) :
    threads.rotate (wrap (threads.map some) (pos + 1)) = threads.rotate (pos + 1) := by
  rw [wrap, List.length_map]
  split
  · have hend : pos + 1 = threads.length := by omega
    rw [hend, List.rotate_zero, List.rotate_length]
  · rfl

/-- What stands at a position is the first element in the order from there. -/
theorem getElem_rotate {executor : Executor} {rest : List Executor} (hpos : pos < threads.length)
    (hrotate : threads.rotate pos = executor :: rest) :
    (threads.map some)[pos]?.join = some executor := by
  rw [List.getElem?_map, ← List.head?_rotate hpos, hrotate]
  rfl

/-- One step on. -/
theorem rotate_succ {executor : Executor} {rest : List Executor}
    (hrotate : threads.rotate pos = executor :: rest) :
    threads.rotate (pos + 1) = rest ++ [executor] := by
  rw [← List.rotate_rotate, hrotate, List.rotate_cons_succ, List.rotate_zero]

/-- The loop finds the first executor of least load, whether it stops at a load of
0 or has gone around. -/
theorem scan_spec {first found : Executor} {l seen : List Executor}
    (hload : ∀ e ∈ threads, 0 ≤ load e) (hpos : pos < threads.length)
    (hrotate : threads.rotate (pos + 1) = l ++ seen) (h : FirstLeast load (first :: seen) found) :
    ∃ pos' found', scan load (threads.map some) l.length pos found (load found) = (pos', found') ∧
      pos' < threads.length ∧ FirstLeast load (first :: seen ++ l) found' := by
  induction l generalizing pos seen found with
  | nil => exact ⟨pos, found, rfl, hpos, by simpa using h⟩
  | cons executor rest ih =>
      have hne : threads ≠ [] := List.ne_nil_of_length_pos (by omega)
      have hnext := wrap_lt hne (pos + 1)
      have hhere : threads.rotate (wrap (threads.map some) (pos + 1)) =
          executor :: (rest ++ seen) :=
        (rotate_wrap hpos).trans hrotate
      have hthere : threads.rotate (wrap (threads.map some) (pos + 1) + 1) =
          rest ++ (seen ++ [executor]) := by
        rw [rotate_succ hhere, List.append_assoc]
      obtain ⟨best, hbest, hpair⟩ : ∃ best, FirstLeast load (first :: seen ++ [executor]) best ∧
          (if load executor < load found then (executor, load executor)
            else (found, load found)) = (best, load best) :=
        ⟨_, h.concat executor, by split <;> rfl⟩
      have hlist : first :: seen ++ executor :: rest = first :: seen ++ [executor] ++ rest :=
        List.append_cons _ _ _
      simp only [List.length_cons, scan, getElem_rotate hnext hhere, hpair]
      rw [hlist]
      by_cases hzero : load best = 0
      · rw [if_pos hzero]
        refine ⟨_, _, rfl, hnext, hbest.append fun b hb => hzero ▸ hload b ?_⟩
        apply List.mem_rotate.mp
        rw [hhere]
        simp [hb]
      · rw [if_neg hzero]
        exact ih hnext hthere hbest

/-- What `getExecutor` returns for executors that are not null. -/
theorem getExecutor_of {first : Executor} {rest : List Executor} (hne : threads ≠ [])
    (hrotate : threads.rotate (wrap (threads.map some) pos) = first :: rest) :
    getExecutor load (of threads pos) =
      let found := scan load (threads.map some) threads.length (wrap (threads.map some) pos) first
        (load first)
      some (some found.2, of threads found.1) := by
  have hempty : ¬ (of threads pos).threads_.isEmpty = true := by simpa [of] using hne
  rw [getExecutor, if_neg hempty]
  simp only [of, getElem_rotate (wrap_lt hne pos) hrotate, List.length_map]

/-- The executor returned is the first of those whose load is least, in the order
from the position before the call. -/
theorem getExecutor_least (hload : ∀ e ∈ threads, 0 ≤ load e) (hne : threads ≠ []) (pos : Nat) :
    ∃ executor pos', getExecutor load (of threads pos) = some (some executor, of threads pos') ∧
      pos' < threads.length ∧
      FirstLeast load (threads.rotate (wrap (threads.map some) pos)) executor := by
  have hpos := wrap_lt hne pos
  cases hrotate : threads.rotate (wrap (threads.map some) pos) with
  | nil => exact absurd (List.rotate_eq_nil_iff.mp hrotate) hne
  | cons first rest =>
      have hlength : threads.length = (rest ++ [first]).length := by
        rw [← rotate_succ hrotate, List.length_rotate]
      have hnext : threads.rotate (wrap (threads.map some) pos + 1) = rest ++ [first] ++ [] := by
        rw [rotate_succ hrotate, List.append_nil]
      obtain ⟨pos', executor, hscan, hpos', hleast⟩ :=
        scan_spec hload hpos hnext (FirstLeast.singleton load first)
      rw [← hlength] at hscan
      refine ⟨executor, pos', ?_, hpos', FirstLeast.of_reread hleast⟩
      rw [getExecutor_of hne hrotate, hscan]

/-- An idle executor is taken at once, and the position goes one on. -/
theorem getExecutor_idle {first : Executor} {rest : List Executor}
    (hidle : ∀ e ∈ threads, load e = 0) (hpos : pos < threads.length)
    (hrotate : threads.rotate pos = first :: rest) :
    getExecutor load (of threads pos) =
      some (some first, of threads (wrap (threads.map some) (pos + 1))) := by
  have hne : threads ≠ [] := List.ne_nil_of_length_pos (by omega)
  have hfirst : load first = 0 := hidle first (List.mem_rotate.mp (hrotate ▸ List.mem_cons_self))
  obtain ⟨next, others, hnext⟩ : ∃ next others,
      threads.rotate (wrap (threads.map some) (pos + 1)) = next :: others :=
    List.exists_cons_of_ne_nil (mt List.rotate_eq_nil_iff.mp hne)
  have hzero : load next = 0 := hidle next (List.mem_rotate.mp (hnext ▸ List.mem_cons_self))
  obtain ⟨n, hn⟩ := Nat.exists_eq_succ_of_ne_zero (Nat.ne_zero_of_lt hpos)
  rw [getExecutor_of hne ((wrap_of_lt hpos).symm ▸ hrotate), wrap_of_lt hpos, hn]
  simp only [scan, getElem_rotate (wrap_lt hne (pos + 1)) hnext, hfirst, hzero, lt_irrefl, if_false,
    if_true]

/-- Idle executors are taken in turn. -/
theorem getExecutors_idle {loads : List (Executor → Int)} {l seen : List Executor}
    (hlength : loads.length = l.length) (hidle : ∀ load ∈ loads, ∀ e ∈ threads, load e = 0)
    (hpos : pos < threads.length) (hrotate : threads.rotate pos = l ++ seen) :
    ∃ pos', getExecutors (of threads pos) loads = some (l.map some, of threads pos') := by
  induction loads generalizing pos l seen with
  | nil =>
      obtain rfl := List.length_eq_zero_iff.mp hlength.symm
      exact ⟨pos, rfl⟩
  | cons load loads ih =>
      obtain ⟨first, rest, rfl⟩ := List.exists_cons_of_length_eq_add_one hlength.symm
      have hne : threads ≠ [] := List.ne_nil_of_length_pos (by omega)
      obtain ⟨hload, hloads⟩ := List.forall_mem_cons.mp hidle
      have hnext : threads.rotate (wrap (threads.map some) (pos + 1)) =
          rest ++ (seen ++ [first]) := by
        rw [rotate_wrap hpos, rotate_succ hrotate]
        exact List.append_assoc _ _ _
      obtain ⟨pos', hcalls⟩ :=
        ih (Nat.succ.inj hlength) hloads (wrap_lt hne (pos + 1)) hnext
      refine ⟨pos', ?_⟩
      rw [getExecutors, getExecutor_idle hload hpos hrotate]
      simp only [hcalls, List.map_cons]

/-- `getExecutor` and the position it leaves do not depend on how far past the end
the position is. -/
theorem getExecutor_wrap (hne : threads ≠ []) (pos : Nat) :
    getExecutor load (of threads pos) =
      getExecutor load (of threads (wrap (threads.map some) pos)) := by
  obtain ⟨first, rest, hrotate⟩ : ∃ first rest,
      threads.rotate (wrap (threads.map some) pos) = first :: rest :=
    List.exists_cons_of_ne_nil (mt List.rotate_eq_nil_iff.mp hne)
  have hsame := wrap_of_lt (wrap_lt hne pos)
  rw [getExecutor_of hne hrotate, getExecutor_of hne (hsame.symm ▸ hrotate), hsame]

/-- A call returns the first executor of least load in the order from the wrapped
position; as long as all are idle, as many calls as there are executors return each
once; and without executors a call returns null. -/
theorem least_loaded_in_turn (threads : List Executor) (pos : Nat) :
    (∀ load : Executor → Int, (∀ e ∈ threads, 0 ≤ load e) → threads ≠ [] →
      ∃ executor pos', getExecutor load (of threads pos) = some (some executor, of threads pos') ∧
        pos' < threads.length ∧
        FirstLeast load (threads.rotate (wrap (threads.map some) pos)) executor) ∧
    (∀ loads : List (Executor → Int), loads.length = threads.length →
      (∀ load ∈ loads, ∀ e ∈ threads, load e = 0) →
      ∃ (executors : List Executor) (pos' : Nat),
        getExecutors (of threads pos) loads = some (executors.map some, of threads pos') ∧
        executors.Perm threads) ∧
    (∀ load : Executor → Int, getExecutor load (of [] pos) = some (none, of [] pos)) := by
  refine ⟨fun load hload hne => getExecutor_least hload hne pos, ?_, fun load => rfl⟩
  intro loads hlength hidle
  cases loads with
  | nil =>
      obtain rfl := List.length_eq_zero_iff.mp hlength.symm
      exact ⟨[], pos, rfl, List.Perm.refl _⟩
  | cons load loads =>
      have hne : threads ≠ [] := List.ne_nil_of_length_pos (hlength ▸ Nat.zero_lt_succ _)
      obtain ⟨pos', hcalls⟩ := getExecutors_idle
        (hlength.trans (List.length_rotate threads (wrap (threads.map some) pos)).symm) hidle
        (wrap_lt hne pos) (List.append_nil _).symm
      refine ⟨threads.rotate (wrap (threads.map some) pos), pos', ?_, List.rotate_perm _ _⟩
      rw [← hcalls, getExecutors, getExecutors, getExecutor_wrap hne]

/-- Three executors, of which the last two are equally loaded. -/
theorem least_loaded_in_turn_three :
    getExecutor (fun e : Nat => if e = 0 then 50 else 20) (of [0, 1, 2] 2) =
      some (some 2, of [0, 1, 2] 2) ∧
    ∃ executor pos',
      getExecutor (fun e : Nat => if e = 0 then 50 else 20) (of [0, 1, 2] 2) =
        some (some executor, of [0, 1, 2] pos') ∧ pos' < 3 ∧
      FirstLeast (fun e : Nat => if e = 0 then (50 : Int) else 20) [2, 0, 1] executor :=
  ⟨by decide, (least_loaded_in_turn [0, 1, 2] 2).1 _ (by decide) (by decide)⟩

end TaskExecutorGetterImp

end FFZKit.Thread.ExecutorGetter

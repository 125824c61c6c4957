import FFZKit.Foundations.Transition
import Mathlib.Data.Fintype.Basic
import Mathlib.Logic.Function.Basic

/-!
# `ResourcePool`

Objects are created by `getPtr` when there is none to reuse, belong to the
handles that `obtain` and `obtain2` return, and are recycled or deleted when
the last handle goes. `getPtr` and `recycle` try the flag `busy_` and fall
back to `new` and `delete` when it is taken.

## Implementation notes

`Call` names the calls that may be in progress at a time, nested ones
included. All handles that share one object form a group. The flag of a group
outlives it, since `quit` may still be called on a handle that was reset. A
call of `on_recycle` does nothing to the pool by itself: what it calls is
another call. The fields `maxSize` and `deleted` are histories.
-/

namespace FFZKit.Util.ResourcePool

open FFZKit.Foundations.Transition

/-- The handles that own one object. `quit` is the index of the shared flag
that `obtain` makes and `obtain2` does not. -/
structure Group where
  object : Nat
  quit : Option Nat
  deriving DecidableEq, Repr

/-- The program counter of one call. `getting` to `got` are `obtain` and
`obtain2`, with or without a flag; `releasing` to `dropping` are the deleter
of a group. Between `testAndSet` and `clear` the call holds `busy_`. -/
inductive CallPhase
  | idle
  | getting (flagged : Bool)
  | getLocked (flagged : Bool)
  | getBusy (flagged : Bool)
  | getDone (flagged : Bool) (object : Nat)
  | got (flagged : Bool) (object : Nat)
  | releasing (object : Nat) (quit : Option Nat)
  | strong (object : Nat) (quit : Option Nat)
  | recycling (object : Nat)
  | recycleLocked (object : Nat)
  | recycleBusy (object : Nat)
  | recycleDone
  | dropping
  deriving DecidableEq, Repr

/-- The object that a call has taken from one place and not put into another. -/
def CallPhase.object : CallPhase → Option Nat
  | .getDone _ o => some o
  | .got _ o => some o
  | .releasing o _ => some o
  | .strong o _ => some o
  | .recycling o => some o
  | .recycleLocked o => some o
  | .recycleBusy o => some o
  | _ => none

/-- The call is inside `ResourcePool::obtain` or `ResourcePool::obtain2`. -/
def CallPhase.obtaining : CallPhase → Bool
  | .getting _ => true
  | .getLocked _ => true
  | .getBusy _ => true
  | .getDone _ _ => true
  | .got _ _ => true
  | _ => false

/-- The call holds the `strongPool` that it locked. -/
def CallPhase.holdsStrong : CallPhase → Bool
  | .strong _ _ => true
  | .recycling _ => true
  | .recycleLocked _ => true
  | .recycleBusy _ => true
  | .recycleDone => true
  | .dropping => true
  | _ => false

/-- The call has set `busy_` and not cleared it. -/
def CallPhase.holdsBusy : CallPhase → Bool
  | .getLocked _ => true
  | .getDone _ _ => true
  | .recycleLocked _ => true
  | .recycleDone => true
  | _ => false

/-- A `ResourcePool`, its `ResourcePool_I`, the handles and the calls in
progress. `strong` counts the `shared_ptr`s to the `ResourcePool_I`, `next`
the objects created, and `alive` says that the `ResourcePool` exists. -/
structure Pool (Call Handle : Type*) where
  alive : Bool
  strong : Nat
  poolSize : Nat
  freeList : List Nat
  busy : Bool
  next : Nat
  flags : List Bool
  groups : Handle → Option Group
  calls : Call → CallPhase
  maxSize : Nat
  deleted : List Nat

variable {Call Handle : Type*}

/-- A pool that has just been constructed. -/
def init (Call Handle : Type*) : Pool Call Handle where
  alive := true
  strong := 1
  poolSize := 8
  freeList := []
  busy := false
  next := 0
  flags := []
  groups := fun _ => none
  calls := fun _ => .idle
  maxSize := 8
  deleted := []

namespace Pool

/-- `delete ptr` -/
def delete (s : Pool Call Handle) (o : Nat) : Pool Call Handle :=
  { s with deleted := s.deleted ++ [o] }

/-- A `shared_ptr` to the `ResourcePool_I` goes. With the last one its
destructor deletes what is in `free_list_`. -/
def dropStrong (s : Pool Call Handle) : Pool Call Handle :=
  if s.strong = 1 then
    { s with strong := 0, freeList := [], deleted := s.deleted ++ s.freeList }
  else { s with strong := s.strong - 1 }

variable [DecidableEq Call] [DecidableEq Handle]

def setCall (s : Pool Call Handle) (c : Call) (phase : CallPhase) : Pool Call Handle :=
  { s with calls := Function.update s.calls c phase }

/-- `alloc_()`: the new object is with the call. -/
def alloc (s : Pool Call Handle) (c : Call) (phase : Nat → CallPhase) : Pool Call Handle :=
  { s.setCall c (phase s.next) with next := s.next + 1 }

/-- The body of `getPtr` under the flag. -/
def takeFree (s : Pool Call Handle) (c : Call) (flagged : Bool) : Pool Call Handle :=
  match s.freeList.getLast? with
  | some o => { s.setCall c (.getDone flagged o) with freeList := s.freeList.dropLast }
  | none => s.alloc c (.getDone flagged)

/-- The body of `recycle` under the flag. -/
def putFree (s : Pool Call Handle) (c : Call) (o : Nat) : Pool Call Handle :=
  if s.freeList.length < s.poolSize then
    { s.setCall c .recycleDone with freeList := s.freeList ++ [o] }
  else (s.setCall c .recycleDone).delete o

/-- The handle that `obtain` or `obtain2` returns. -/
def handOut (s : Pool Call Handle) (c : Call) (g : Handle) (flagged : Bool) (o : Nat) :
    Pool Call Handle :=
  { s.setCall c .idle with
    groups := Function.update s.groups g
      (some ⟨o, if flagged then some s.flags.length else none⟩)
    flags := if flagged then s.flags ++ [false] else s.flags }

/-- The last handle of the group goes, and its deleter begins. -/
def release (s : Pool Call Handle) (c : Call) (g : Handle) (group : Group) : Pool Call Handle :=
  { s.setCall c (.releasing group.object group.quit) with
    groups := Function.update s.groups g none }

/-- The value of the flag that the deleter captured. The deleter of `obtain2`
has none and always recycles. -/
def quits (s : Pool Call Handle) (quit : Option Nat) : Bool :=
  match quit with
  | none => false
  | some k => s.flags.getD k false

end Pool

/-- The steps of all threads. `obtain` is the entry of `obtain` or `obtain2`,
`lockPool` the `weakPool.lock()` of a deleter and `check` its reading of the
flag. `testAndSet`, `body` and `clear` are those of `getPtr` and `recycle`. -/
inductive Action (Call Handle : Type*)
  | obtain_ (c : Call) (flagged : Bool)
  | testAndSet (c : Call)
  | body (c : Call)
  | clear (c : Call)
  | handOut (c : Call) (g : Handle)
  | quit (k : Nat) (flag : Bool)
  | release (c : Call) (g : Handle)
  | lockPool (c : Call)
  | check (c : Call)
  | dropStrong (c : Call)
  | setSize (size : Nat)
  | destroy

variable [DecidableEq Call] [DecidableEq Handle] [Fintype Call]

/-- One step of one of the calls. The pool is not destroyed while a thread is
inside one of its functions, and `setSize` is called alone. -/
def step (s : Pool Call Handle) : Action Call Handle → Option (Pool Call Handle)
  | .obtain_ c flagged =>
      if s.alive = true ∧ s.calls c = .idle then some (s.setCall c (.getting flagged)) else none
  | .testAndSet c =>
      match s.calls c with
      | .getting flagged =>
          some { s.setCall c (if s.busy then .getBusy flagged else .getLocked flagged) with
            busy := true }
      | .recycling o =>
          some { s.setCall c (if s.busy then .recycleBusy o else .recycleLocked o) with
            busy := true }
      | _ => none
  | .body c =>
      match s.calls c with
      | .getLocked flagged => some (s.takeFree c flagged)
      | .getBusy flagged => some (s.alloc c (.got flagged))
      | .recycleLocked o => some (s.putFree c o)
      | .recycleBusy o => some ((s.setCall c .dropping).delete o)
      | _ => none
  | .clear c =>
      match s.calls c with
      | .getDone flagged o => some { s.setCall c (.got flagged o) with busy := false }
      | .recycleDone => some { s.setCall c .dropping with busy := false }
      | _ => none
  | .handOut c g =>
      match s.calls c with
      | .got flagged o => if s.groups g = none then some (s.handOut c g flagged o) else none
      | _ => none
  | .quit k flag => if k < s.flags.length then some { s with flags := s.flags.set k flag } else none
  | .release c g =>
      match s.groups g with
      | some group => if s.calls c = .idle then some (s.release c g group) else none
      | none => none
  | .lockPool c =>
      match s.calls c with
      | .releasing o quit =>
          if 0 < s.strong then
            some { s.setCall c (.strong o quit) with strong := s.strong + 1 }
          else some ((s.setCall c .idle).delete o)
      | _ => none
  | .check c =>
      match s.calls c with
      | .strong o quit =>
          if s.quits quit then some ((s.setCall c .dropping).delete o)
          else some (s.setCall c (.recycling o))
      | _ => none
  | .dropStrong c =>
      if s.calls c = .dropping then some (s.setCall c .idle).dropStrong else none
  | .setSize size =>
      if s.alive = true ∧ ∀ c, s.calls c = .idle then
        some { s with poolSize := size, maxSize := max s.maxSize size }
      else none
  | .destroy =>
      if s.alive = true ∧ ∀ c, (s.calls c).obtaining = false then
        some { s.dropStrong with alive := false }
      else none

/-- Everything one step can do, with the guard under which it does it. -/
inductive Moves : Pool Call Handle → Action Call Handle → Pool Call Handle → Prop
  | obtain_ {s c flagged} (halive : s.alive = true) (hcall : s.calls c = .idle) :
      Moves s (.obtain_ c flagged) (s.setCall c (.getting flagged))
  | getLocked {s c flagged} (hcall : s.calls c = .getting flagged) (hbusy : s.busy = false) :
      Moves s (.testAndSet c) { s.setCall c (.getLocked flagged) with busy := true }
  | getBusy {s c flagged} (hcall : s.calls c = .getting flagged) (hbusy : s.busy = true) :
      Moves s (.testAndSet c) (s.setCall c (.getBusy flagged))
  | recycleLocked {s c o} (hcall : s.calls c = .recycling o) (hbusy : s.busy = false) :
      Moves s (.testAndSet c) { s.setCall c (.recycleLocked o) with busy := true }
  | recycleBusy {s c o} (hcall : s.calls c = .recycling o) (hbusy : s.busy = true) :
      Moves s (.testAndSet c) (s.setCall c (.recycleBusy o))
  | takeFree {s c flagged front o} (hcall : s.calls c = .getLocked flagged)
      (hfree : s.freeList = front ++ [o]) :
      Moves s (.body c) { s.setCall c (.getDone flagged o) with freeList := front }
  | allocLocked {s c flagged} (hcall : s.calls c = .getLocked flagged) (hfree : s.freeList = []) :
      Moves s (.body c) (s.alloc c (.getDone flagged))
  | allocBusy {s c flagged} (hcall : s.calls c = .getBusy flagged) :
      Moves s (.body c) (s.alloc c (.got flagged))
  | putFree {s c o} (hcall : s.calls c = .recycleLocked o)
      (hroom : s.freeList.length < s.poolSize) :
      Moves s (.body c) { s.setCall c .recycleDone with freeList := s.freeList ++ [o] }
  | deleteFull {s c o} (hcall : s.calls c = .recycleLocked o)
      (hroom : s.poolSize ≤ s.freeList.length) :
      Moves s (.body c) ((s.setCall c .recycleDone).delete o)
  | deleteBusy {s c o} (hcall : s.calls c = .recycleBusy o) :
      Moves s (.body c) ((s.setCall c .dropping).delete o)
  | clearGet {s c flagged o} (hcall : s.calls c = .getDone flagged o) :
      Moves s (.clear c) { s.setCall c (.got flagged o) with busy := false }
  | clearRecycle {s c} (hcall : s.calls c = .recycleDone) :
      Moves s (.clear c) { s.setCall c .dropping with busy := false }
  | handOut {s c g flagged o} (hcall : s.calls c = .got flagged o) (hgroup : s.groups g = none) :
      Moves s (.handOut c g) (s.handOut c g flagged o)
  | quit {s k flag} (hflag : k < s.flags.length) :
      Moves s (.quit k flag) { s with flags := s.flags.set k flag }
  | release {s c g group} (hgroup : s.groups g = some group) (hcall : s.calls c = .idle) :
      Moves s (.release c g) (s.release c g group)
  | lockPool {s c o quit} (hcall : s.calls c = .releasing o quit) (hstrong : 0 < s.strong) :
      Moves s (.lockPool c) { s.setCall c (.strong o quit) with strong := s.strong + 1 }
  | deleteClosed {s c o quit} (hcall : s.calls c = .releasing o quit) (hstrong : s.strong = 0) :
      Moves s (.lockPool c) ((s.setCall c .idle).delete o)
  | deleteQuit {s c o quit} (hcall : s.calls c = .strong o quit) (hquit : s.quits quit = true) :
      Moves s (.check c) ((s.setCall c .dropping).delete o)
  | recycle {s c o quit} (hcall : s.calls c = .strong o quit) (hquit : s.quits quit = false) :
      Moves s (.check c) (s.setCall c (.recycling o))
  | dropStrong {s c} (hcall : s.calls c = .dropping) :
      Moves s (.dropStrong c) (s.setCall c .idle).dropStrong
  | setSize {s size} (halive : s.alive = true) (hidle : ∀ c, s.calls c = .idle) :
      Moves s (.setSize size) { s with poolSize := size, maxSize := max s.maxSize size }
  | destroy {s} (halive : s.alive = true) (hidle : ∀ c, (s.calls c).obtaining = false) :
      Moves s .destroy { s.dropStrong with alive := false }

omit [Fintype Call] in
theorem takeFree_moves {s : Pool Call Handle} {c : Call} {flagged : Bool}
    (hcall : s.calls c = .getLocked flagged) : Moves s (.body c) (s.takeFree c flagged) := by
  rcases List.eq_nil_or_concat s.freeList with hfree | ⟨front, o, hfree⟩
  · rw [Pool.takeFree, hfree]
    exact .allocLocked hcall hfree
  · rw [List.concat_eq_append] at hfree
    rw [Pool.takeFree, hfree, List.getLast?_concat, List.dropLast_concat]
    exact .takeFree hcall hfree

omit [Fintype Call] in
theorem putFree_moves {s : Pool Call Handle} {c : Call} {o : Nat}
    (hcall : s.calls c = .recycleLocked o) : Moves s (.body c) (s.putFree c o) := by
  rw [Pool.putFree]
  split
  · rename_i hroom
    exact .putFree hcall hroom
  · rename_i hroom
    exact .deleteFull hcall (by omega)

/-- A step is one of the listed moves. -/
theorem step_moves {s s' : Pool Call Handle} {a : Action Call Handle} (h : step s a = some s') :
    Moves s a s' := by
  cases a with
  | obtain_ c flagged =>
      simp only [step, Option.ite_none_right_eq_some, Option.some.injEq] at h
      obtain ⟨⟨halive, hcall⟩, rfl⟩ := h
      exact .obtain_ halive hcall
  | testAndSet c =>
      simp only [step] at h
      split at h
      · rename_i flagged hcall
        cases h
        cases hbusy : s.busy with
        | false => exact .getLocked hcall hbusy
        | true =>
            convert Moves.getBusy hcall hbusy using 1
            simp [Pool.setCall, hbusy]
      · rename_i o hcall
        cases h
        cases hbusy : s.busy with
        | false => exact .recycleLocked hcall hbusy
        | true =>
            convert Moves.recycleBusy hcall hbusy using 1
            simp [Pool.setCall, hbusy]
      · cases h
  | body c =>
      simp only [step] at h
      split at h
      · rename_i flagged hcall
        cases h
        exact takeFree_moves hcall
      · rename_i flagged hcall
        cases h
        exact .allocBusy hcall
      · rename_i o hcall
        cases h
        exact putFree_moves hcall
      · rename_i o hcall
        cases h
        exact .deleteBusy hcall
      · cases h
  | clear c =>
      simp only [step] at h
      split at h
      · rename_i flagged o hcall
        cases h
        exact .clearGet hcall
      · rename_i hcall
        cases h
        exact .clearRecycle hcall
      · cases h
  | handOut c g =>
      simp only [step] at h
      split at h
      · rename_i flagged o hcall
        simp only [Option.ite_none_right_eq_some, Option.some.injEq] at h
        obtain ⟨hgroup, rfl⟩ := h
        exact .handOut hcall hgroup
      · cases h
  | quit k flag =>
      simp only [step, Option.ite_none_right_eq_some, Option.some.injEq] at h
      obtain ⟨hflag, rfl⟩ := h
      exact .quit hflag
  | release c g =>
      simp only [step] at h
      split at h
      · rename_i group hgroup
        simp only [Option.ite_none_right_eq_some, Option.some.injEq] at h
        obtain ⟨hcall, rfl⟩ := h
        exact .release hgroup hcall
      · cases h
  | lockPool c =>
      simp only [step] at h
      split at h
      · rename_i o quit hcall
        split at h
        · rename_i hstrong
          cases h
          exact .lockPool hcall hstrong
        · rename_i hstrong
          cases h
          exact .deleteClosed hcall (by omega)
      · cases h
  | check c =>
      simp only [step] at h
      split at h
      · rename_i o quit hcall
        split at h
        · rename_i hquit
          cases h
          exact .deleteQuit hcall hquit
        · rename_i hquit
          cases h
          exact .recycle hcall (Bool.eq_false_iff.mpr hquit)
      · cases h
  | dropStrong c =>
      simp only [step, Option.ite_none_right_eq_some, Option.some.injEq] at h
      obtain ⟨hcall, rfl⟩ := h
      exact .dropStrong hcall
  | setSize size =>
      simp only [step, Option.ite_none_right_eq_some, Option.some.injEq] at h
      obtain ⟨⟨halive, hidle⟩, rfl⟩ := h
      exact .setSize halive hidle
  | destroy =>
      simp only [step, Option.ite_none_right_eq_some, Option.some.injEq] at h
      obtain ⟨⟨halive, hidle⟩, rfl⟩ := h
      exact .destroy halive hidle

end FFZKit.Util.ResourcePool

import FFZKit.Util.ResourceCustody

/-!
# A constructor that throws inside `getPtr`

`alloc_` runs the constructor of the object, which may throw. The exception
leaves `getPtr` and `obtain`, and nothing clears `busy_` on that way: when the
call held it, the flag stays set for good, and every later release deletes its
object.
-/

namespace FFZKit.Util.ResourcePool

open FFZKit.Foundations FFZKit.Foundations.Transition

/-- A step, or an exception of the `alloc_` of a call. -/
inductive ThrowingAction (Call Handle : Type*)
  | act (a : Action Call Handle)
  | throw_ (c : Call)

/-- `getPtr` or `recycle` is in progress. -/
def CallPhase.inPool : CallPhase → Bool
  | .getting _ => true
  | .getLocked _ => true
  | .getBusy _ => true
  | .getDone _ _ => true
  | .recycling _ => true
  | .recycleLocked _ => true
  | .recycleBusy _ => true
  | .recycleDone => true
  | _ => false

/-- The call that makes a step. -/
def Action.caller {Call Handle : Type*} : Action Call Handle → Option Call
  | .obtain_ c _ => some c
  | .testAndSet c => some c
  | .body c => some c
  | .clear c => some c
  | .handOut c _ => some c
  | .release c _ => some c
  | .lockPool c => some c
  | .check c => some c
  | .dropStrong c => some c
  | .quit _ _ => none
  | .setSize _ => none
  | .destroy => none

def ThrowingAction.caller {Call Handle : Type*} : ThrowingAction Call Handle → Option Call
  | .act a => a.caller
  | .throw_ c => some c

/-- The steps of an `obtain` that fails: it begins, tries the flag, and throws. -/
def ThrowingAction.fails {Call Handle : Type*} : ThrowingAction Call Handle → Prop
  | .act (.obtain_ _ _) => True
  | .act (.testAndSet _) => True
  | .act _ => False
  | .throw_ _ => True

section Step

variable {Call Handle : Type*} [DecidableEq Call] [DecidableEq Handle] [Fintype Call]

/-- One step, where `alloc_` may throw. The call ends without a handle. -/
def throwStep (s : Pool Call Handle) : ThrowingAction Call Handle → Option (Pool Call Handle)
  | .act a => step s a
  | .throw_ c =>
      match s.calls c with
      | .getLocked _ => if s.freeList = [] then some (s.setCall c .idle) else none
      | .getBusy _ => some (s.setCall c .idle)
      | _ => none

/-- No `alloc_` throws in a call that holds `busy_`. -/
def Spares (s : Pool Call Handle) : ThrowingAction Call Handle → Prop
  | .act _ => True
  | .throw_ c => (s.calls c).holdsBusy = false

variable {s t : Pool Call Handle} {c : Call}

/-- An exception that spares the flag ends its call and does nothing else. -/
theorem throw_spares (hspares : Spares s (.throw_ c)) (h : throwStep s (.throw_ c) = some t) :
    (∃ flagged, s.calls c = .getBusy flagged) ∧ t = s.setCall c .idle := by
  rw [Spares] at hspares
  rw [throwStep] at h
  split at h
  · rename_i hcall
    rw [hcall] at hspares
    cases hspares
  · rename_i flagged hcall
    exact ⟨⟨flagged, hcall⟩, (Option.some.inj h).symm⟩
  · cases h

theorem locked_throwStep {a : ThrowingAction Call Handle} (hspares : Spares s a)
    (h : throwStep s a = some t) (hlocked : Locked s) : Locked t := by
  cases a with
  | act a => exact locked_step h hlocked
  | throw_ c =>
      obtain ⟨⟨flagged, hcall⟩, rfl⟩ := throw_spares hspares h
      exact hlocked.keep hcall rfl

theorem refs_throwStep {a : ThrowingAction Call Handle} (hspares : Spares s a)
    (h : throwStep s a = some t) (hrefs : Refs s) : Refs t := by
  cases a with
  | act a => exact refs_step h hrefs
  | throw_ c =>
      obtain ⟨⟨flagged, hcall⟩, rfl⟩ := throw_spares hspares h
      exact hrefs.keep hcall rfl

end Step

section Moves

variable {Call Handle : Type*} [DecidableEq Call] [DecidableEq Handle] {s t : Pool Call Handle}
  {c : Call}

omit [DecidableEq Call] [DecidableEq Handle] in
theorem dropStrong_calls : s.dropStrong.calls = s.calls := by
  rw [Pool.dropStrong]
  split <;> rfl

/-- What can move can be stepped. -/
theorem moves_step [Fintype Call] {a : Action Call Handle} (h : Moves s a t) :
    step s a = some t := by
  cases h with
  | getBusy hcall hbusy => simp [step, hcall, hbusy, Pool.setCall]
  | recycleBusy hcall hbusy => simp [step, hcall, hbusy, Pool.setCall]
  | _ => simp [step, Pool.takeFree, Pool.putFree, *]

/-- A step does not change the phase of another call. -/
theorem calls_of_moves {a : Action Call Handle} (h : Moves s a t) (hc : a.caller ≠ some c) :
    t.calls c = s.calls c := by
  have hother : ∀ (d : Call) (phase : CallPhase), some d ≠ some c →
      Function.update s.calls d phase c = s.calls c :=
    fun d phase hd => Function.update_of_ne (fun heq => hd (congrArg some heq.symm)) _ _
  cases h with
  | quit => rfl
  | setSize => rfl
  | destroy => exact congrFun dropStrong_calls c
  | dropStrong hcall =>
      rw [dropStrong_calls]
      exact hother _ _ hc
  | _ => exact hother _ _ hc

end Moves

section Forget

variable {Call Handle : Type*} [DecidableEq Call]

/-- The pool without a call. -/
def Pool.forget (s : Pool Call Handle) (c : Call) : Pool Call Handle := s.setCall c .idle

variable {s t : Pool Call Handle} {c d : Call}

theorem forget_of_idle (h : s.calls c = .idle) : s.forget c = s := by
  rw [Pool.forget, Pool.setCall, ← h, Function.update_eq_self]

theorem forget_calls_self : (s.forget c).calls c = .idle := Function.update_self ..

theorem forget_calls_of_ne (h : d ≠ c) {phase : CallPhase} (hd : s.calls d = phase) :
    (s.forget c).calls d = phase := (Function.update_of_ne h _ _).trans hd

theorem forget_setCall_self (phase : CallPhase) :
    (s.setCall c phase).forget c = s.forget c := by
  simp [Pool.forget, Pool.setCall]

theorem forget_setCall_of_ne (h : d ≠ c) (phase : CallPhase) :
    (s.setCall d phase).forget c = (s.forget c).setCall d phase := by
  simp [Pool.forget, Pool.setCall, Function.update_comm h]

theorem forget_dropStrong : s.dropStrong.forget c = (s.forget c).dropStrong := by
  have hstrong : (s.forget c).strong = s.strong := rfl
  rw [Pool.dropStrong, Pool.dropStrong, hstrong]
  split <;> rfl

/-- A condition on all calls that an idle call meets is still met. -/
theorem forget_forall {P : CallPhase → Prop} (hidle : P .idle) (h : ∀ d, P (s.calls d)) (d : Call) :
    P ((s.forget c).calls d) := by
  by_cases hd : d = c
  · rw [hd, forget_calls_self]
    exact hidle
  · rw [forget_calls_of_ne hd rfl]
    exact h d

/-- The steps of the other calls are those of the pool without the call. -/
theorem forget_moves [DecidableEq Handle] {a : Action Call Handle} (h : Moves s a t)
    (hc : a.caller ≠ some c) : Moves (s.forget c) a (t.forget c) := by
  have hne : ∀ {d}, some d ≠ some c → d ≠ c := fun hd heq => hd (congrArg some heq)
  cases h with
  | quit hflag => exact .quit hflag
  | setSize halive hidle =>
      exact .setSize halive (forget_forall (P := fun phase => phase = .idle) rfl hidle)
  | destroy halive hidle =>
      have hmove := Moves.destroy (s := s.forget c) halive
        (forget_forall (P := fun phase => phase.obtaining = false) rfl hidle)
      rw [← forget_dropStrong] at hmove
      exact hmove
  | dropStrong hcall =>
      rw [forget_dropStrong, forget_setCall_of_ne (hne hc)]
      exact .dropStrong (forget_calls_of_ne (hne hc) hcall)
  | obtain_ halive hcall =>
      rw [forget_setCall_of_ne (hne hc)]
      exact .obtain_ halive (forget_calls_of_ne (hne hc) hcall)
  | getLocked hcall hbusy =>
      have hmove := Moves.getLocked (forget_calls_of_ne (hne hc) hcall) hbusy
      rw [← forget_setCall_of_ne (hne hc)] at hmove
      exact hmove
  | getBusy hcall hbusy =>
      rw [forget_setCall_of_ne (hne hc)]
      exact .getBusy (forget_calls_of_ne (hne hc) hcall) hbusy
  | recycleLocked hcall hbusy =>
      have hmove := Moves.recycleLocked (forget_calls_of_ne (hne hc) hcall) hbusy
      rw [← forget_setCall_of_ne (hne hc)] at hmove
      exact hmove
  | recycleBusy hcall hbusy =>
      rw [forget_setCall_of_ne (hne hc)]
      exact .recycleBusy (forget_calls_of_ne (hne hc) hcall) hbusy
  | takeFree hcall hfree =>
      have hmove := Moves.takeFree (forget_calls_of_ne (hne hc) hcall) hfree
      rw [← forget_setCall_of_ne (hne hc)] at hmove
      exact hmove
  | allocLocked hcall hfree =>
      have hmove := Moves.allocLocked (forget_calls_of_ne (hne hc) hcall) hfree
      rw [Pool.alloc, ← forget_setCall_of_ne (hne hc)] at hmove
      exact hmove
  | allocBusy hcall =>
      have hmove := Moves.allocBusy (forget_calls_of_ne (hne hc) hcall)
      rw [Pool.alloc, ← forget_setCall_of_ne (hne hc)] at hmove
      exact hmove
  | putFree hcall hroom =>
      have hmove := Moves.putFree (forget_calls_of_ne (hne hc) hcall) hroom
      rw [← forget_setCall_of_ne (hne hc)] at hmove
      exact hmove
  | deleteFull hcall hroom =>
      have hmove := Moves.deleteFull (forget_calls_of_ne (hne hc) hcall) hroom
      rw [← forget_setCall_of_ne (hne hc)] at hmove
      exact hmove
  | deleteBusy hcall =>
      have hmove := Moves.deleteBusy (forget_calls_of_ne (hne hc) hcall)
      rw [← forget_setCall_of_ne (hne hc)] at hmove
      exact hmove
  | clearGet hcall =>
      have hmove := Moves.clearGet (forget_calls_of_ne (hne hc) hcall)
      rw [← forget_setCall_of_ne (hne hc)] at hmove
      exact hmove
  | clearRecycle hcall =>
      have hmove := Moves.clearRecycle (forget_calls_of_ne (hne hc) hcall)
      rw [← forget_setCall_of_ne (hne hc)] at hmove
      exact hmove
  | handOut hcall hgroup =>
      have hmove := Moves.handOut (forget_calls_of_ne (hne hc) hcall) hgroup
      rw [Pool.handOut, ← forget_setCall_of_ne (hne hc)] at hmove
      exact hmove
  | release hgroup hcall =>
      have hmove := Moves.release (s := s.forget c) hgroup (forget_calls_of_ne (hne hc) hcall)
      rw [Pool.release, ← forget_setCall_of_ne (hne hc)] at hmove
      exact hmove
  | lockPool hcall hstrong =>
      have hmove := Moves.lockPool (forget_calls_of_ne (hne hc) hcall) hstrong
      rw [← forget_setCall_of_ne (hne hc)] at hmove
      exact hmove
  | deleteClosed hcall hstrong =>
      have hmove := Moves.deleteClosed (forget_calls_of_ne (hne hc) hcall) hstrong
      rw [← forget_setCall_of_ne (hne hc)] at hmove
      exact hmove
  | deleteQuit hcall hquit =>
      have hmove := Moves.deleteQuit (forget_calls_of_ne (hne hc) hcall) hquit
      rw [← forget_setCall_of_ne (hne hc)] at hmove
      exact hmove
  | recycle hcall hquit =>
      rw [forget_setCall_of_ne (hne hc)]
      exact .recycle (forget_calls_of_ne (hne hc) hcall) hquit

end Forget

end FFZKit.Util.ResourcePool

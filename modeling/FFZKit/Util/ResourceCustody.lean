import FFZKit.Foundations.Custody
import FFZKit.Foundations.Tally
import FFZKit.Util.ResourcePool
import Mathlib.Data.List.Nodup

/-!
# Every object of a `ResourcePool` has one owner

An object is owned by a group of handles, lies in `free_list_`, is with a
call that takes it from one to the other, or has been deleted. Each step
moves at most one object, except that the destructor of the pool deletes all
that lie in `free_list_`.
-/

namespace FFZKit.Util.ResourcePool

open FFZKit.Foundations FFZKit.Foundations.Transition

/-- Where an object can be. -/
inductive Place (Call Handle : Type*)
  | owned (g : Handle)
  | free
  | transit (c : Call)
  | deleted
  deriving DecidableEq

variable {Call Handle : Type*}

/-- The object is in the place. -/
def Pool.holds (s : Pool Call Handle) (o : Nat) : Place Call Handle → Prop
  | .owned g => ∃ quit, s.groups g = some ⟨o, quit⟩
  | .free => o ∈ s.freeList
  | .transit c => (s.calls c).object = some o
  | .deleted => o ∈ s.deleted

/-- Every object created is in one place, and in a list once. -/
structure Books (s : Pool Call Handle) : Prop where
  custody : Custody s.holds s.next
  free : s.freeList.Nodup
  deleted : s.deleted.Nodup

theorem books_init : Books (init Call Handle) where
  custody := by
    refine ⟨fun _ => .deleted, fun o p => ?_⟩
    cases p with
    | owned g => simp [Pool.holds, init]
    | free => simp [Pool.holds, init]
    | transit c => simp [Pool.holds, init, CallPhase.object]
    | deleted => simp [Pool.holds, init]
  free := List.nodup_nil
  deleted := List.nodup_nil

/-- The pool lives as long as its `ResourcePool` or a deleter that locked it,
and `free_list_` is empty once it is gone. -/
structure Refs [Fintype Call] (s : Pool Call Handle) : Prop where
  count : s.strong = s.alive.toNat + tally CallPhase.holdsStrong s.calls
  closed : s.strong = 0 → s.freeList = []

/-- `free_list_` holds no more than the pool was ever set to. -/
structure Sizes (s : Pool Call Handle) : Prop where
  set : s.poolSize ≤ s.maxSize
  free : s.freeList.length ≤ s.maxSize

/-- `busy_` is set while one call is between its `testAndSet` and its `clear`. -/
def Locked [Fintype Call] (s : Pool Call Handle) : Prop :=
  tally CallPhase.holdsBusy s.calls = s.busy.toNat

theorem refs_init [Fintype Call] : Refs (init Call Handle) where
  count := by
    have hnone : tally CallPhase.holdsStrong (init Call Handle).calls = 0 :=
      tally_eq_zero_iff.mpr fun _ => rfl
    rw [hnone]
    rfl
  closed := fun _ => rfl

theorem sizes_init : Sizes (init Call Handle) := ⟨le_refl 8, Nat.zero_le 8⟩

theorem locked_init [Fintype Call] : Locked (init Call Handle) :=
  tally_eq_zero_iff.mpr fun _ => rfl

/-- One reference to the pool goes, and with the last one what `free_list_` held. -/
theorem dropStrong_refs {s : Pool Call Handle} (h : 0 < s.strong) :
    s.dropStrong.strong + 1 = s.strong ∧ s.dropStrong.alive = s.alive ∧
      s.dropStrong.calls = s.calls ∧ (s.dropStrong.strong = 0 → s.dropStrong.freeList = []) := by
  rw [Pool.dropStrong]
  split
  · rename_i hone
    exact ⟨hone.symm, rfl, rfl, fun _ => rfl⟩
  · refine ⟨Nat.sub_add_cancel h, rfl, rfl, fun hzero => ?_⟩
    simp only at hzero
    omega

theorem nodup_snoc {l : List Nat} {o : Nat} (h : l.Nodup) (ho : o ∉ l) : (l ++ [o]).Nodup := by
  rw [← List.concat_eq_append]
  exact List.Nodup.concat ho h

variable [DecidableEq Call]

theorem holds_transit_self {s : Pool Call Handle} {c : Call} {phase : CallPhase} {o : Nat} :
    (s.setCall c phase).holds o (.transit c) ↔ phase.object = some o := by
  simp [Pool.holds, Pool.setCall]

theorem holds_transit_ne {s : Pool Call Handle} {c d : Call} {phase : CallPhase} {o : Nat}
    (h : d ≠ c) : (s.setCall c phase).holds o (.transit d) ↔ s.holds o (.transit d) := by
  simp [Pool.holds, Pool.setCall, h]

/-- A call that keeps its object changes no place. -/
theorem holds_setCall {s : Pool Call Handle} {c : Call} {phase : CallPhase}
    (h : phase.object = (s.calls c).object) (o : Nat) (p : Place Call Handle) :
    (s.setCall c phase).holds o p ↔ s.holds o p := by
  cases p with
  | owned g => exact Iff.rfl
  | free => exact Iff.rfl
  | deleted => exact Iff.rfl
  | transit d =>
      by_cases hd : d = c
      · rw [hd, holds_transit_self, h]
        exact Iff.rfl
      · exact holds_transit_ne hd

theorem Books.keep {s : Pool Call Handle} (h : Books s) {c : Call} {phase : CallPhase}
    (hkeep : phase.object = (s.calls c).object) : Books (s.setCall c phase) :=
  ⟨h.custody.congr (holds_setCall hkeep), h.free, h.deleted⟩

/-- A call deletes its object. -/
theorem Books.delete {s : Pool Call Handle} (h : Books s) {c : Call} {phase : CallPhase} {o : Nat}
    (hobject : (s.calls c).object = some o) (hphase : phase.object = none) :
    Books ((s.setCall c phase).delete o) := by
  have hfresh : o ∉ s.deleted := by
    intro hmem
    have hplace := h.custody.unique (show s.holds o (.transit c) from hobject)
      (show s.holds o .deleted from hmem)
    cases hplace
  refine ⟨h.custody.move (p := .transit c) (q := .deleted) hobject ?_ ?_ ?_, h.free, ?_⟩
  · intro x
    have hnone : ¬ ((s.setCall c phase).delete o).holds x (.transit c) := by
      simp [Pool.holds, Pool.setCall, Pool.delete, hphase]
    refine iff_of_false hnone ?_
    rintro ⟨hx, hne⟩
    exact hne (Option.some.inj (hx.symm.trans hobject))
  · intro x
    simp [Pool.holds, Pool.setCall, Pool.delete]
  · intro x r hr _
    cases r with
    | owned g => exact Iff.rfl
    | free => exact Iff.rfl
    | deleted => simp at *
    | transit d => exact holds_transit_ne fun hd => hr (by rw [hd])
  · exact nodup_snoc h.deleted hfresh

/-- A call creates the next object. -/
theorem Books.alloc {s : Pool Call Handle} (h : Books s) {c : Call} {phase : Nat → CallPhase}
    (hnone : (s.calls c).object = none) (hphase : (phase s.next).object = some s.next) :
    Books (s.alloc c phase) := by
  refine ⟨h.custody.create (q := .transit c) ?_ ?_, h.free, h.deleted⟩
  · intro x
    have hold : ¬ s.holds x (.transit c) := by simp [Pool.holds, hnone]
    rw [or_iff_right hold]
    simp [Pool.holds, Pool.alloc, Pool.setCall, hphase, eq_comm]
  · intro x r hr
    cases r with
    | owned g => exact Iff.rfl
    | free => exact Iff.rfl
    | deleted => exact Iff.rfl
    | transit d => exact holds_transit_ne fun hd => hr (by rw [hd])

/-- A call takes the object at the back of `free_list_`. -/
theorem Books.takeFree {s : Pool Call Handle} (h : Books s) {c : Call} {phase : CallPhase}
    {front : List Nat} {o : Nat} (hfree : s.freeList = front ++ [o])
    (hnone : (s.calls c).object = none) (hphase : phase.object = some o) :
    Books { s.setCall c phase with freeList := front } := by
  have hnodup := h.free
  rw [hfree, List.nodup_append] at hnodup
  have hfresh : o ∉ front := fun hmem => hnodup.2.2 o hmem o (by simp) rfl
  have hmem : s.holds o .free := by
    rw [Pool.holds, hfree]
    simp
  refine ⟨h.custody.move (p := .free) (q := .transit c) hmem ?_ ?_ ?_, hnodup.1, h.deleted⟩
  · intro x
    simp only [Pool.holds, hfree, List.mem_append, List.mem_singleton]
    constructor
    · intro hx
      exact ⟨Or.inl hx, fun heq => hfresh (heq ▸ hx)⟩
    · rintro ⟨hx | hx, hne⟩
      · exact hx
      · exact absurd hx hne
  · intro x
    have hold : ¬ s.holds x (.transit c) := by simp [Pool.holds, hnone]
    rw [or_iff_right hold]
    simp [Pool.holds, Pool.setCall, hphase, eq_comm]
  · intro x r hfrom hto
    cases r with
    | owned g => exact Iff.rfl
    | free => exact absurd rfl hfrom
    | deleted => exact Iff.rfl
    | transit d => exact holds_transit_ne fun hd => hto (by rw [hd])

/-- A call puts its object at the back of `free_list_`. -/
theorem Books.putFree {s : Pool Call Handle} (h : Books s) {c : Call} {phase : CallPhase} {o : Nat}
    (hobject : (s.calls c).object = some o) (hphase : phase.object = none) :
    Books { s.setCall c phase with freeList := s.freeList ++ [o] } := by
  have hfresh : o ∉ s.freeList := by
    intro hmem
    have hplace := h.custody.unique (show s.holds o (.transit c) from hobject)
      (show s.holds o .free from hmem)
    cases hplace
  refine ⟨h.custody.move (p := .transit c) (q := .free) hobject ?_ ?_ ?_,
    nodup_snoc h.free hfresh, h.deleted⟩
  · intro x
    have hgone : ¬ Pool.holds { s.setCall c phase with freeList := s.freeList ++ [o] } x
        (.transit c) := by
      simp [Pool.holds, Pool.setCall, hphase]
    refine iff_of_false hgone ?_
    rintro ⟨hx, hne⟩
    exact hne (Option.some.inj (hx.symm.trans hobject))
  · intro x
    simp [Pool.holds]
  · intro x r hfrom hto
    cases r with
    | owned g => exact Iff.rfl
    | free => exact absurd rfl hto
    | deleted => exact Iff.rfl
    | transit d => exact holds_transit_ne fun hd => hfrom (by rw [hd])

/-- The destructor of the pool deletes what lies in `free_list_`. -/
theorem Books.dropStrong [DecidableEq Handle] {s : Pool Call Handle} (h : Books s) :
    Books s.dropStrong := by
  rw [Pool.dropStrong]
  split
  · refine ⟨h.custody.empty (p := .free) (q := .deleted) (by simp) ?_ ?_ ?_, List.nodup_nil, ?_⟩
    · intro x
      simp [Pool.holds]
    · intro x
      simp [Pool.holds]
    · intro x r hfrom hto
      cases r with
      | owned g => exact Iff.rfl
      | free => exact absurd rfl hfrom
      | deleted => exact absurd rfl hto
      | transit d => exact Iff.rfl
    · apply List.Nodup.append h.deleted h.free
      intro o hdeleted hfree
      have hplace := h.custody.unique (show s.holds o .deleted from hdeleted)
        (show s.holds o .free from hfree)
      cases hplace
  · exact ⟨h.custody, h.free, h.deleted⟩

/-- The effect on a tally of a call that moves on. -/
theorem tally_setCall [Fintype Call] (p : CallPhase → Bool) (s : Pool Call Handle) (c : Call)
    {old : CallPhase} (new : CallPhase) (hold : s.calls c = old) :
    tally p (s.setCall c new).calls + (p old).toNat = tally p s.calls + (p new).toNat := by
  rw [← hold]
  exact tally_update p s.calls c new

theorem Refs.keep [Fintype Call] {s : Pool Call Handle} (h : Refs s) {c : Call}
    {old new : CallPhase} (hold : s.calls c = old) (hkeep : new.holdsStrong = old.holdsStrong) :
    Refs (s.setCall c new) := by
  have hcalls := tally_setCall CallPhase.holdsStrong s c new hold
  have hcount := h.count
  rw [hkeep] at hcalls
  refine ⟨?_, h.closed⟩
  simp only [Pool.setCall] at hcalls ⊢
  omega

theorem Locked.keep [Fintype Call] {s : Pool Call Handle} (h : Locked s) {c : Call}
    {old new : CallPhase} (hold : s.calls c = old) (hkeep : new.holdsBusy = old.holdsBusy) :
    Locked (s.setCall c new) := by
  have hcalls := tally_setCall CallPhase.holdsBusy s c new hold
  rw [hkeep, h] at hcalls
  rw [Locked]
  simp only [Pool.setCall] at hcalls ⊢
  omega

/-- A call that sets the free flag is the one that holds it. -/
theorem Locked.acquire [Fintype Call] {s : Pool Call Handle} (h : Locked s) {c : Call}
    {old new : CallPhase} (hcall : s.calls c = old) (hold : old.holdsBusy = false)
    (hnew : new.holdsBusy = true) (hbusy : s.busy = false) :
    tally CallPhase.holdsBusy (s.setCall c new).calls = 1 := by
  have hcalls := tally_setCall CallPhase.holdsBusy s c new hcall
  rw [hold, hnew, h, hbusy, Bool.toNat_false, Bool.toNat_true] at hcalls
  omega

/-- The call that clears the flag was the only one that held it. -/
theorem Locked.clear [Fintype Call] {s : Pool Call Handle} (h : Locked s) {c : Call}
    {old new : CallPhase} (hcall : s.calls c = old) (hold : old.holdsBusy = true)
    (hnew : new.holdsBusy = false) : tally CallPhase.holdsBusy (s.setCall c new).calls = 0 := by
  have hcalls := tally_setCall CallPhase.holdsBusy s c new hcall
  have hbusy := Bool.toNat_le s.busy
  rw [hold, hnew, h, Bool.toNat_false, Bool.toNat_true] at hcalls
  omega

variable [DecidableEq Handle]

/-- A call hands its object to a new group of handles. -/
theorem Books.handOut {s : Pool Call Handle} (h : Books s) {c : Call} {g : Handle} {flagged : Bool}
    {o : Nat} (hobject : (s.calls c).object = some o) (hgroup : s.groups g = none) :
    Books (s.handOut c g flagged o) := by
  refine ⟨h.custody.move (p := .transit c) (q := .owned g) hobject ?_ ?_ ?_, h.free, h.deleted⟩
  · intro x
    have hgone : ¬ (s.handOut c g flagged o).holds x (.transit c) := by
      simp [Pool.holds, Pool.handOut, Pool.setCall, CallPhase.object]
    refine iff_of_false hgone ?_
    rintro ⟨hx, hne⟩
    exact hne (Option.some.inj (hx.symm.trans hobject))
  · intro x
    have hold : ¬ s.holds x (.owned g) := by simp [Pool.holds, hgroup]
    rw [or_iff_right hold]
    simp [Pool.holds, Pool.handOut, eq_comm]
  · intro x r hfrom hto
    cases r with
    | owned g' =>
        have hne : g' ≠ g := fun heq => hto (by rw [heq])
        simp [Pool.holds, Pool.handOut, Pool.setCall, hne]
    | free => exact Iff.rfl
    | deleted => exact Iff.rfl
    | transit d => exact holds_transit_ne fun hd => hfrom (by rw [hd])

/-- The deleter of a group takes the object of the group. -/
theorem Books.release {s : Pool Call Handle} (h : Books s) {c : Call} {g : Handle} {group : Group}
    (hgroup : s.groups g = some group) (hcall : (s.calls c).object = none) :
    Books (s.release c g group) := by
  have hmem : s.holds group.object (.owned g) := ⟨group.quit, hgroup⟩
  refine ⟨h.custody.move (p := .owned g) (q := .transit c) hmem ?_ ?_ ?_, h.free, h.deleted⟩
  · intro x
    have hgone : ¬ (s.release c g group).holds x (.owned g) := by
      simp [Pool.holds, Pool.release, Pool.setCall]
    refine iff_of_false hgone ?_
    rintro ⟨⟨quit, hx⟩, hne⟩
    rw [hgroup, Option.some.injEq] at hx
    exact hne (by rw [hx])
  · intro x
    have hold : ¬ s.holds x (.transit c) := by simp [Pool.holds, hcall]
    rw [or_iff_right hold]
    simp [Pool.holds, Pool.release, Pool.setCall, CallPhase.object, eq_comm]
  · intro x r hfrom hto
    cases r with
    | owned g' =>
        have hne : g' ≠ g := fun heq => hfrom (by rw [heq])
        simp [Pool.holds, Pool.release, Pool.setCall, hne]
    | free => exact Iff.rfl
    | deleted => exact Iff.rfl
    | transit d => exact holds_transit_ne fun hd => hto (by rw [hd])

variable [Fintype Call]

theorem books_step {s s' : Pool Call Handle} {a : Action Call Handle}
    (hstep : step s a = some s') (h : Books s) : Books s' := by
  cases step_moves hstep with
  | obtain_ _ hcall => exact h.keep (by rw [hcall]; rfl)
  | @getLocked c flagged hcall _ =>
      have hkeep : Books (s.setCall c (.getLocked flagged)) := h.keep (by rw [hcall]; rfl)
      exact ⟨hkeep.custody, hkeep.free, hkeep.deleted⟩
  | getBusy hcall _ => exact h.keep (by rw [hcall]; rfl)
  | @recycleLocked c o hcall _ =>
      have hkeep : Books (s.setCall c (.recycleLocked o)) := h.keep (by rw [hcall]; rfl)
      exact ⟨hkeep.custody, hkeep.free, hkeep.deleted⟩
  | recycleBusy hcall _ => exact h.keep (by rw [hcall]; rfl)
  | takeFree hcall hfree => exact h.takeFree hfree (by rw [hcall]; rfl) rfl
  | allocLocked hcall _ => exact h.alloc (by rw [hcall]; rfl) rfl
  | allocBusy hcall => exact h.alloc (by rw [hcall]; rfl) rfl
  | putFree hcall _ => exact h.putFree (by rw [hcall]; rfl) rfl
  | deleteFull hcall _ => exact h.delete (by rw [hcall]; rfl) rfl
  | deleteBusy hcall => exact h.delete (by rw [hcall]; rfl) rfl
  | @clearGet c flagged o hcall =>
      have hkeep : Books (s.setCall c (.got flagged o)) := h.keep (by rw [hcall]; rfl)
      exact ⟨hkeep.custody, hkeep.free, hkeep.deleted⟩
  | @clearRecycle c hcall =>
      have hkeep : Books (s.setCall c .dropping) := h.keep (by rw [hcall]; rfl)
      exact ⟨hkeep.custody, hkeep.free, hkeep.deleted⟩
  | handOut hcall hgroup => exact h.handOut (by rw [hcall]; rfl) hgroup
  | quit => exact ⟨h.custody, h.free, h.deleted⟩
  | release hgroup hcall => exact h.release hgroup (by rw [hcall]; rfl)
  | @lockPool c o quit hcall _ =>
      have hkeep : Books (s.setCall c (.strong o quit)) := h.keep (by rw [hcall]; rfl)
      exact ⟨hkeep.custody, hkeep.free, hkeep.deleted⟩
  | deleteClosed hcall _ => exact h.delete (by rw [hcall]; rfl) rfl
  | deleteQuit hcall _ => exact h.delete (by rw [hcall]; rfl) rfl
  | recycle hcall _ => exact h.keep (by rw [hcall]; rfl)
  | @dropStrong c hcall =>
      have hkeep : Books (s.setCall c .idle) := h.keep (by rw [hcall]; rfl)
      exact hkeep.dropStrong
  | setSize => exact ⟨h.custody, h.free, h.deleted⟩
  | destroy =>
      have hdrop := h.dropStrong
      exact ⟨hdrop.custody, hdrop.free, hdrop.deleted⟩

theorem sizes_step {s s' : Pool Call Handle} {a : Action Call Handle}
    (hstep : step s a = some s') (h : Sizes s) : Sizes s' := by
  have hdrop : ∀ {s : Pool Call Handle}, Sizes s → Sizes s.dropStrong := by
    intro s h
    rw [Pool.dropStrong]
    split
    · exact ⟨h.set, Nat.zero_le _⟩
    · exact ⟨h.set, h.free⟩
  have hset := h.set
  have hfree := h.free
  cases step_moves hstep with
  | takeFree _ hlist =>
      rw [hlist, List.length_append] at hfree
      exact ⟨h.set, (Nat.le_add_right _ _).trans hfree⟩
  | putFree _ hroom =>
      refine ⟨h.set, ?_⟩
      simp only [List.length_append, List.length_singleton, Pool.setCall]
      omega
  | @dropStrong c _ => exact hdrop (show Sizes (s.setCall c .idle) from ⟨h.set, h.free⟩)
  | setSize => exact ⟨by simp only; omega, by simp only; omega⟩
  | destroy => exact ⟨(hdrop h).set, (hdrop h).free⟩
  | obtain_ => exact ⟨h.set, h.free⟩
  | getLocked => exact ⟨h.set, h.free⟩
  | getBusy => exact ⟨h.set, h.free⟩
  | recycleLocked => exact ⟨h.set, h.free⟩
  | recycleBusy => exact ⟨h.set, h.free⟩
  | allocLocked => exact ⟨h.set, h.free⟩
  | allocBusy => exact ⟨h.set, h.free⟩
  | deleteFull => exact ⟨h.set, h.free⟩
  | deleteBusy => exact ⟨h.set, h.free⟩
  | clearGet => exact ⟨h.set, h.free⟩
  | clearRecycle => exact ⟨h.set, h.free⟩
  | handOut => exact ⟨h.set, h.free⟩
  | quit => exact ⟨h.set, h.free⟩
  | release => exact ⟨h.set, h.free⟩
  | lockPool => exact ⟨h.set, h.free⟩
  | deleteClosed => exact ⟨h.set, h.free⟩
  | deleteQuit => exact ⟨h.set, h.free⟩
  | recycle => exact ⟨h.set, h.free⟩

theorem refs_step {s s' : Pool Call Handle} {a : Action Call Handle}
    (hstep : step s a = some s') (h : Refs s) : Refs s' := by
  have hcount := h.count
  cases step_moves hstep with
  | obtain_ _ hcall => exact h.keep hcall rfl
  | getLocked hcall _ => exact ⟨(h.keep hcall (by rfl)).count, h.closed⟩
  | getBusy hcall _ => exact h.keep hcall rfl
  | recycleLocked hcall _ => exact ⟨(h.keep hcall (by rfl)).count, h.closed⟩
  | recycleBusy hcall _ => exact h.keep hcall rfl
  | takeFree hcall hfree =>
      refine ⟨(h.keep hcall (by rfl)).count, fun hzero => ?_⟩
      rw [h.closed hzero] at hfree
      simp at hfree
  | allocLocked hcall _ => exact ⟨(h.keep hcall (by rfl)).count, h.closed⟩
  | allocBusy hcall => exact ⟨(h.keep hcall (by rfl)).count, h.closed⟩
  | @putFree c o hcall _ =>
      refine ⟨(h.keep hcall (by rfl)).count, fun hzero => ?_⟩
      have hpos : 0 < tally CallPhase.holdsStrong s.calls :=
        tally_pos (i := c) (by rw [hcall]; rfl)
      simp only [Pool.setCall] at hzero
      omega
  | deleteFull hcall _ => exact ⟨(h.keep hcall (by rfl)).count, h.closed⟩
  | deleteBusy hcall => exact ⟨(h.keep hcall (by rfl)).count, h.closed⟩
  | clearGet hcall => exact ⟨(h.keep hcall (by rfl)).count, h.closed⟩
  | clearRecycle hcall => exact ⟨(h.keep hcall (by rfl)).count, h.closed⟩
  | handOut hcall _ => exact ⟨(h.keep hcall (by rfl)).count, h.closed⟩
  | quit => exact ⟨h.count, h.closed⟩
  | release _ hcall => exact ⟨(h.keep hcall (by rfl)).count, h.closed⟩
  | @lockPool c o quit hcall hstrong =>
      have hcalls := tally_setCall CallPhase.holdsStrong s c (.strong o quit) hcall
      simp only [CallPhase.holdsStrong, Bool.toNat_false, Bool.toNat_true] at hcalls
      refine ⟨?_, fun hzero => ?_⟩
      · simp only [Pool.setCall] at hcalls ⊢
        omega
      · simp only at hzero
        omega
  | deleteClosed hcall _ => exact ⟨(h.keep hcall (by rfl)).count, h.closed⟩
  | deleteQuit hcall _ => exact ⟨(h.keep hcall (by rfl)).count, h.closed⟩
  | recycle hcall _ => exact h.keep hcall rfl
  | @dropStrong c hcall =>
      have hcalls := tally_setCall CallPhase.holdsStrong s c .idle hcall
      simp only [CallPhase.holdsStrong, Bool.toNat_false, Bool.toNat_true] at hcalls
      have hstrong : (s.setCall c .idle).strong = s.strong := rfl
      have halive : (s.setCall c .idle).alive = s.alive := rfl
      obtain ⟨hdrop, halive', hcalls', hclosed⟩ :=
        dropStrong_refs (s := s.setCall c .idle) (by rw [hstrong]; omega)
      refine ⟨?_, hclosed⟩
      rw [halive', hcalls', halive]
      omega
  | setSize => exact ⟨h.count, h.closed⟩
  | destroy halive _ =>
      rw [halive, Bool.toNat_true] at hcount
      obtain ⟨hdrop, -, hcalls, hclosed⟩ := dropStrong_refs (s := s) (by omega)
      refine ⟨?_, hclosed⟩
      simp only [hcalls, Bool.toNat_false]
      omega

theorem locked_step {s s' : Pool Call Handle} {a : Action Call Handle}
    (hstep : step s a = some s') (h : Locked s) : Locked s' := by
  cases step_moves hstep with
  | obtain_ _ hcall => exact h.keep hcall rfl
  | getLocked hcall hbusy => exact h.acquire hcall rfl rfl hbusy
  | getBusy hcall _ => exact h.keep hcall rfl
  | recycleLocked hcall hbusy => exact h.acquire hcall rfl rfl hbusy
  | recycleBusy hcall _ => exact h.keep hcall rfl
  | takeFree hcall _ => exact h.keep hcall (by rfl)
  | allocLocked hcall _ => exact h.keep hcall (by rfl)
  | allocBusy hcall => exact h.keep hcall (by rfl)
  | putFree hcall _ => exact h.keep hcall (by rfl)
  | deleteFull hcall _ => exact h.keep hcall (by rfl)
  | deleteBusy hcall => exact h.keep hcall (by rfl)
  | clearGet hcall => exact h.clear hcall rfl rfl
  | clearRecycle hcall => exact h.clear hcall rfl rfl
  | handOut hcall _ => exact h.keep hcall (by rfl)
  | quit => exact h
  | release _ hcall => exact h.keep hcall (by rfl)
  | lockPool hcall _ => exact h.keep hcall (by rfl)
  | deleteClosed hcall _ => exact h.keep hcall (by rfl)
  | deleteQuit hcall _ => exact h.keep hcall (by rfl)
  | recycle hcall _ => exact h.keep hcall rfl
  | @dropStrong c hcall =>
      have hkeep : Locked (s.setCall c .idle) := h.keep hcall rfl
      rw [Pool.dropStrong]
      split
      · exact hkeep
      · exact hkeep
  | setSize => exact h
  | destroy =>
      rw [Pool.dropStrong]
      split
      · exact h
      · exact h

/-- The `ResourcePool`, all handles and all calls are gone. -/
def Gone (s : Pool Call Handle) : Prop :=
  s.alive = false ∧ (∀ g, s.groups g = none) ∧ ∀ c, s.calls c = .idle

omit [DecidableEq Call] [DecidableEq Handle] in
/-- When everything is gone every object created has been deleted. -/
theorem deleted_of_gone {s : Pool Call Handle} (hgone : Gone s) (books : Books s) (refs : Refs s) :
    s.deleted.Perm (List.range s.next) := by
  obtain ⟨halive, hgroups, hcalls⟩ := hgone
  have hnone : tally CallPhase.holdsStrong s.calls = 0 := by
    rw [tally_eq_zero_iff]
    intro c
    rw [hcalls c]
    rfl
  have hfree : s.freeList = [] := by
    apply refs.closed
    rw [refs.count, hnone, halive]
    rfl
  rw [List.perm_ext_iff_of_nodup books.deleted List.nodup_range]
  intro o
  rw [List.mem_range]
  constructor
  · intro hmem
    exact books.custody.lt (show s.holds o .deleted from hmem)
  · intro ho
    obtain ⟨p, hp, -⟩ := books.custody.existsUnique ho
    cases p with
    | owned g =>
        obtain ⟨quit, hgroup⟩ := hp
        rw [hgroups g] at hgroup
        cases hgroup
    | free =>
        rw [Pool.holds, hfree] at hp
        cases hp
    | transit c =>
        rw [Pool.holds, hcalls c] at hp
        cases hp
    | deleted => exact hp

/-- In every reachable state an object that was created is owned by one group
of handles, or lies in `free_list_` once, or is with one call, or has been
deleted once, and nothing else is in any of these places. Once the pool, the
handles and the calls are gone every object has been deleted exactly once.
`free_list_` never holds more than the largest size that was set. -/
theorem resourcePool_ownership {as : List (Action Call Handle)} {s : Pool Call Handle}
    (run : Run step anyStep (init Call Handle) as s) :
    (∀ o < s.next, ∃! p, s.holds o p) ∧ (∀ o p, s.holds o p → o < s.next) ∧
      s.freeList.Nodup ∧ s.deleted.Nodup ∧ (Gone s → s.deleted.Perm (List.range s.next)) ∧
      s.freeList.length ≤ s.maxSize := by
  have books : Books s :=
    run.invariant (fun _ _ _ _ hstep h => books_step hstep h) books_init
  have refs : Refs s := run.invariant (fun _ _ _ _ hstep h => refs_step hstep h) refs_init
  have sizes : Sizes s := run.invariant (fun _ _ _ _ hstep h => sizes_step hstep h) sizes_init
  exact ⟨fun o ho => books.custody.existsUnique ho, fun o p hp => books.custody.lt hp,
    books.free, books.deleted, fun hgone => deleted_of_gone hgone books refs, sizes.free⟩

/-- The guarded bodies of `getPtr` and `recycle` exclude each other. -/
theorem busy_exclusive {as : List (Action Call Handle)} {s : Pool Call Handle}
    (run : Run step anyStep (init Call Handle) as s) {c d : Call}
    (hc : (s.calls c).holdsBusy = true) (hd : (s.calls d).holdsBusy = true) : c = d := by
  have hlock : Locked s := run.invariant (fun _ _ _ _ hstep h => locked_step hstep h) locked_init
  have hle : (Finset.univ.filter fun c => (s.calls c).holdsBusy = true).card ≤ 1 := by
    rw [Locked, tally] at hlock
    rw [hlock]
    exact Bool.toNat_le s.busy
  exact Finset.card_le_one.mp hle c (by simp [hc]) d (by simp [hd])

/-- The pool is destroyed while the call `true` recycles an object and the
call `false` deletes another. -/
def closedInRecycle : List (Action Bool Bool) :=
  [.obtain_ false true, .obtain_ true false, .testAndSet false, .testAndSet true, .body false,
    .body true, .clear false, .handOut false false, .handOut true true, .quit 0 true,
    .release false false, .release true true, .lockPool true, .check true, .lockPool false,
    .check false, .destroy, .dropStrong false, .testAndSet true, .body true, .clear true,
    .dropStrong true]

theorem resourcePool_ownership_closedInRecycle :
    ∃ s, exec step (init Bool Bool) closedInRecycle = some s ∧
      s.deleted.Perm (List.range 2) := by
  refine ⟨_, rfl, ?_⟩
  have run : Run step anyStep (init Bool Bool) closedInRecycle _ :=
    run_of_exec rfl fun _ _ _ => trivial
  exact (resourcePool_ownership run).2.2.2.2.1 ⟨rfl, by decide, by decide⟩

end FFZKit.Util.ResourcePool

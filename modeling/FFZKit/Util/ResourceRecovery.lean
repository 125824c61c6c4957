import FFZKit.Util.ResourceThrow

/-!
# When a pool survives its constructors

As long as no constructor throws in a call that holds `busy_`, the flag is
clear whenever `getPtr` and `recycle` are left, a failed `obtain` may be left
out of the history, and a release puts its object back.
-/

namespace FFZKit.Util.ResourcePool

open FFZKit.Foundations FFZKit.Foundations.Transition

variable {Call Handle : Type*} [DecidableEq Call] [DecidableEq Handle] [Fintype Call]
  {s t : Pool Call Handle} {c : Call}

section Erasure

/-- A step of a failing `obtain`, or of another call. -/
def Failing (c : Call) (a : ThrowingAction Call Handle) : Prop := a.caller = some c → a.fails

/-- The own step of a failing `obtain` does not take the flag. -/
def FindsBusy (c : Call) (s : Pool Call Handle) (a : ThrowingAction Call Handle) : Prop :=
  (Spares s a ∧ Failing c a) ∧ (a = .act (.testAndSet c) → s.busy = true)

theorem calls_throwStep {a : ThrowingAction Call Handle} (hspares : Spares s a)
    (h : throwStep s a = some t) (hc : a.caller ≠ some c) : t.calls c = s.calls c := by
  cases a with
  | act a => exact calls_of_moves (step_moves h) hc
  | throw_ d =>
      obtain ⟨-, rfl⟩ := throw_spares hspares h
      exact Function.update_of_ne (fun heq => hc (congrArg some heq.symm)) _ _

/-- A failing `obtain` that has taken the flag keeps it. -/
theorem holdsBusy_throwStep {a : ThrowingAction Call Handle} (hmeets : Spares s a ∧ Failing c a)
    (h : throwStep s a = some t) (hholds : (s.calls c).holdsBusy = true) :
    (t.calls c).holdsBusy = true := by
  obtain ⟨hspares, hfailing⟩ := hmeets
  by_cases hc : a.caller = some c
  · have hfails := hfailing hc
    cases a with
    | throw_ d =>
        obtain rfl := Option.some.inj hc
        rw [Spares, hholds] at hspares
        cases hspares
    | act a =>
        have hfree : ∀ {d phase}, some d = some c → s.calls d = phase → phase.holdsBusy = false →
            (t.calls c).holdsBusy = true := by
          intro d phase hd hcall hphase
          rw [Option.some.inj hd] at hcall
          rw [hcall, hphase] at hholds
          cases hholds
        cases step_moves h with
        | obtain_ _ hcall => exact hfree hc hcall rfl
        | getLocked hcall _ => exact hfree hc hcall rfl
        | getBusy hcall _ => exact hfree hc hcall rfl
        | recycleLocked hcall _ => exact hfree hc hcall rfl
        | recycleBusy hcall _ => exact hfree hc hcall rfl
        | _ => exact absurd hfails id
  · rw [calls_throwStep hspares h hc]
    exact hholds

/-- A `testAndSet` that finds the flag clear takes it. -/
theorem holdsBusy_testAndSet (h : step s (.testAndSet c) = some t)
    (hbusy : s.busy = false) : (t.calls c).holdsBusy = true := by
  cases step_moves h with
  | getLocked => simp [Pool.setCall, CallPhase.holdsBusy]
  | recycleLocked => simp [Pool.setCall, CallPhase.holdsBusy]
  | getBusy _ htaken => rw [hbusy] at htaken; cases htaken
  | recycleBusy _ htaken => rw [hbusy] at htaken; cases htaken

/-- An `obtain` that ends by an exception has found the flag taken. -/
theorem findsBusy_of_idle {as : List (ThrowingAction Call Handle)}
    (run : Run throwStep (fun s a => Spares s a ∧ Failing c a) s as t)
    (ht : t.calls c = .idle) : Run throwStep (FindsBusy c) s as t := by
  induction run with
  | halt => exact Run.halt
  | @next s a u as t meets moves tail ih =>
      refine Run.next ⟨meets, fun ha => ?_⟩ moves (ih ht)
      subst ha
      cases hbusy : s.busy with
      | true => rfl
      | false =>
          have hheld : (t.calls c).holdsBusy = true :=
            tail.invariant (P := fun s => (s.calls c).holdsBusy = true)
              (fun _ _ _ hmeets hmoves => holdsBusy_throwStep hmeets hmoves)
              (holdsBusy_testAndSet moves hbusy)
          rw [ht] at hheld
          cases hheld

/-- The own steps of a failing `obtain` change nothing but its phase. -/
theorem forget_own {a : ThrowingAction Call Handle} (hmeets : FindsBusy c s a)
    (h : throwStep s a = some t) (hc : a.caller = some c) : t.forget c = s.forget c := by
  obtain ⟨⟨hspares, hfailing⟩, hbusy⟩ := hmeets
  have hfails := hfailing hc
  cases a with
  | throw_ d =>
      obtain rfl := Option.some.inj hc
      obtain ⟨-, rfl⟩ := throw_spares hspares h
      exact forget_setCall_self _
  | act a =>
      cases step_moves h with
      | obtain_ =>
          obtain rfl := Option.some.inj hc
          exact forget_setCall_self _
      | getLocked _ hclear =>
          obtain rfl := Option.some.inj hc
          rw [hbusy rfl] at hclear
          cases hclear
      | getBusy =>
          obtain rfl := Option.some.inj hc
          exact forget_setCall_self _
      | recycleLocked _ hclear =>
          obtain rfl := Option.some.inj hc
          rw [hbusy rfl] at hclear
          cases hclear
      | recycleBusy =>
          obtain rfl := Option.some.inj hc
          exact forget_setCall_self _
      | _ => exact absurd hfails id

/-- The steps of the others go on without the failing `obtain`. -/
theorem forget_others {a : ThrowingAction Call Handle} (hspares : Spares s a)
    (h : throwStep s a = some t) (hc : a.caller ≠ some c) :
    Spares (s.forget c) a ∧ throwStep (s.forget c) a = some (t.forget c) := by
  cases a with
  | act a => exact ⟨trivial, moves_step (forget_moves (step_moves h) hc)⟩
  | throw_ d =>
      have hd : d ≠ c := fun heq => hc (congrArg some heq)
      obtain ⟨⟨flagged, hcall⟩, rfl⟩ := throw_spares hspares h
      have hforget := forget_calls_of_ne hd hcall
      refine ⟨by rw [Spares, hforget]; rfl, ?_⟩
      rw [forget_setCall_of_ne hd, throwStep, hforget]

/-- An `obtain` that fails may be left out of a history: the other steps lead
to the same pool. -/
theorem failed_obtain_erased {as : List (ThrowingAction Call Handle)}
    (run : Run throwStep Spares s as t) (hs : s.calls c = .idle) (ht : t.calls c = .idle)
    (hown : ∀ a ∈ as, a.caller = some c → a.fails) :
    Run throwStep Spares s (as.filter fun a => ¬ a.caller = some c) t := by
  have herase : Run throwStep Spares (s.forget c) (as.filter fun a => ¬ a.caller = some c)
      (t.forget c) :=
    (findsBusy_of_idle (run.and_mem hown) ht).erase
      (fun _ _ _ hmeets hmoves hc => forget_own hmeets hmoves hc)
      (fun _ _ _ hmeets hmoves hc => forget_others hmeets.1.1 hmoves hc)
  rwa [forget_of_idle hs, forget_of_idle ht] at herase

end Erasure

/-- The steps of a release that nothing interrupts. -/
def releaseAlone (c : Call) (g : Handle) : List (ThrowingAction Call Handle) :=
  [.act (.release c g), .act (.lockPool c), .act (.check c), .act (.testAndSet c),
    .act (.body c), .act (.clear c), .act (.dropStrong c)]

/-- With the flag clear and room in `free_list_`, a release keeps its object. -/
theorem release_recycles {g : Handle} {group : Group} (hcall : s.calls c = .idle)
    (hbusy : s.busy = false) (hstrong : 0 < s.strong) (hgroup : s.groups g = some group)
    (hquit : s.quits group.quit = false) (hroom : s.freeList.length < s.poolSize) :
    ∃ t, exec throwStep s (releaseAlone c g) = some t ∧
      t.freeList = s.freeList ++ [group.object] := by
  have hquits : ∀ {s' : Pool Call Handle}, s'.flags = s.flags → s'.quits group.quit = false := by
    intro s' hflags
    rw [← hquit]
    unfold Pool.quits
    rw [hflags]
  simp [releaseAlone, exec, throwStep, step, hgroup, hcall, Pool.release, Pool.setCall, hstrong,
    hstrong.ne', hquits, hbusy, Pool.putFree, hroom, Pool.dropStrong]

theorem holdsBusy_of_not_inPool {phase : CallPhase} (h : phase.inPool = false) :
    phase.holdsBusy = false := by
  cases phase with
  | getLocked => cases h
  | getDone => cases h
  | recycleLocked => cases h
  | recycleDone => cases h
  | _ => rfl

/-- As long as no constructor throws in a call that holds `busy_`: the flag is
clear when `getPtr` and `recycle` are left, a failed `obtain` changes nothing
for the others, and a release that is alone keeps its object when there is room. -/
theorem pool_survives_throws {as : List (ThrowingAction Call Handle)}
    (run : Run throwStep Spares (init Call Handle) as s) :
    ((∀ c, (s.calls c).inPool = false) → s.busy = false) ∧
    (∀ c bs t, Run throwStep Spares s bs t → s.calls c = .idle → t.calls c = .idle →
      (∀ a ∈ bs, a.caller = some c → a.fails) →
        Run throwStep Spares s (bs.filter fun a => ¬ a.caller = some c) t) ∧
    (∀ (c : Call) (g : Handle) (group : Group), s.alive = true → (∀ d, s.calls d = .idle) →
      s.groups g = some group → s.quits group.quit = false → s.freeList.length < s.poolSize →
        ∃ t, exec throwStep s (releaseAlone c g) = some t ∧
          t.freeList = s.freeList ++ [group.object]) := by
  have hlocked : Locked s :=
    run.invariant (fun _ _ _ hmeets hmoves => locked_throwStep hmeets hmoves) locked_init
  have hrefs : Refs s :=
    run.invariant (fun _ _ _ hmeets hmoves => refs_throwStep hmeets hmoves) refs_init
  have hclear : (∀ c, (s.calls c).inPool = false) → s.busy = false := by
    intro hout
    have hnone : tally CallPhase.holdsBusy s.calls = 0 :=
      tally_eq_zero_iff.mpr fun c => holdsBusy_of_not_inPool (hout c)
    rw [Locked, hnone] at hlocked
    exact Bool.toNat_eq_zero.mp hlocked.symm
  refine ⟨hclear, fun c bs t tail hs ht hown => failed_obtain_erased tail hs ht hown, ?_⟩
  intro c g group halive hidle hgroup hquit hroom
  have hbusy : s.busy = false := hclear fun d => by rw [hidle d]; rfl
  have hstrong : 0 < s.strong := by
    rw [hrefs.count, halive]
    exact Nat.add_pos_left Nat.one_pos _
  exact release_recycles (hidle c) hbusy hstrong hgroup hquit hroom

/-- A call throws while another holds the flag, and the object of the other is
released later. -/
def throwBeside : List (ThrowingAction Bool Unit) :=
  [.act (.obtain_ false true), .act (.testAndSet false), .act (.obtain_ true true),
    .act (.testAndSet true), .throw_ true, .act (.body false), .act (.clear false),
    .act (.handOut false ())]

theorem pool_survives_throws_beside : ∃ s t, exec throwStep (init Bool Unit) throwBeside = some s ∧
    s.busy = false ∧ exec throwStep s (releaseAlone true ()) = some t ∧ t.freeList = [0] := by
  have run : Run throwStep Spares (init Bool Unit) throwBeside _ :=
    Run.next trivial rfl <| Run.next trivial rfl <| Run.next trivial rfl <|
      Run.next trivial rfl <| Run.next rfl rfl <| Run.next trivial rfl <|
        Run.next trivial rfl <| Run.next trivial rfl Run.halt
  obtain ⟨hclear, -, hrelease⟩ := pool_survives_throws run
  obtain ⟨t, ht, hfree⟩ := hrelease true () ⟨0, some 0⟩ rfl (by decide) rfl rfl (by decide)
  exact ⟨_, t, rfl, hclear (by decide), ht, hfree⟩

/-- A constructor that throws under the flag leaves it set with no call in
progress, and the next object is deleted on its release. -/
theorem pool_loses_recycling : ∃ s t,
    Run throwStep anyStep (init Unit Unit)
      [.act (.obtain_ () false), .act (.testAndSet ()), .throw_ ()] s ∧
    (∀ c, (s.calls c).inPool = false) ∧ s.busy = true ∧
    exec throwStep s ([.act (.obtain_ () false), .act (.testAndSet ()), .act (.body ()),
      .act (.handOut () ())] ++ [.act (.release () ()), .act (.lockPool ()), .act (.check ()),
      .act (.testAndSet ()), .act (.body ()), .act (.dropStrong ())]) = some t ∧
    t.poolSize = 8 ∧ t.freeList = [] ∧ t.deleted = [0] :=
  ⟨_, _, run_of_exec rfl (fun _ _ _ => trivial), fun _ => rfl, rfl, rfl, rfl, rfl, rfl⟩

end FFZKit.Util.ResourcePool

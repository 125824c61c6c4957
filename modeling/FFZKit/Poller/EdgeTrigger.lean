import FFZKit.Foundations.Lockstep
import FFZKit.Poller.HandoverLedger

/-!
# The wake-up pipe under edge-triggered `epoll`

`addEventPipe` watches the pipe without `Event_LT`, so `epoll` reports it once for
the bytes that arrive and not again while they stay. `onPipeEvent` reads until
EAGAIN, and that is enough: the loop wakes up whenever it would with a pipe that is
reported as long as it has bytes.

## Implementation notes

`EPOLLET` is that of Linux, where it makes the pipe edge-triggered. `ready` says that the
pipe is in the kernel's ready list. A byte that arrives puts it there. `epoll_wait` takes
it out, and reports it when it has bytes.
-/

namespace FFZKit.Poller.TaskHandover

open FFZKit.Foundations.Transition EventPoller

variable {Thread : Type*}

/-- A poller with the kernel's ready list. -/
structure EdgePoller (Thread : Type*) where
  poller : EventPoller Thread
  ready : Bool

def edgeInit (loopThread : Thread) : EdgePoller Thread := ⟨init loopThread, false⟩

/-- A step of the poller, or `epoll_wait` finds that the pipe has no bytes. -/
inductive EdgeAction (Thread : Type*)
  | poller (a : Action Thread)
  | discard

def EdgeAction.poller? : EdgeAction Thread → Option (Action Thread)
  | .poller a => some a
  | .discard => none

/-- Bytes in the pipe are in the ready list, unless the loop is about to read them. -/
def Noticed (s : EdgePoller Thread) : Prop :=
  0 < s.poller.pipe → s.ready = true ∨ s.poller.loop = .inPipeEvent .entered ∨
    s.poller.loop = .inPipeEvent .draining

variable {s : EdgePoller Thread} {p : EventPoller Thread}

theorem noticed_init (loopThread : Thread) : Noticed (edgeInit loopThread) := by
  intro hpos
  exact absurd hpos (Nat.lt_irrefl 0)

theorem Noticed.keep (noticed : Noticed s) (hpipe : p.pipe = s.poller.pipe)
    (hloop : p.loop = s.poller.loop ∨
      s.poller.loop ≠ .inPipeEvent .entered ∧ s.poller.loop ≠ .inPipeEvent .draining) :
    Noticed ⟨p, s.ready⟩ := by
  intro hpos
  rw [hpipe] at hpos
  rcases hloop with hloop | ⟨hentered, hdraining⟩
  · rw [hloop]
    exact noticed hpos
  · rcases noticed hpos with hready | hreading | hreading
    · exact Or.inl hready
    · exact (hentered hreading).elim
    · exact (hdraining hreading).elim

/-- One side leaves a state of `onPipeEvent` in which it does not read. -/
theorem Noticed.setEvent (noticed : Noticed s) {r : Runner} {event : PipeEvent}
    (hpipe : p.pipe = s.poller.pipe) (hr : s.poller.event r = some event)
    (hevent : event ≠ .entered ∧ event ≠ .draining)
    (hdtor : r = .dtor → p.loop = s.poller.loop) : Noticed ⟨p, s.ready⟩ := by
  apply noticed.keep hpipe
  cases r with
  | dtor => exact Or.inl (hdtor rfl)
  | loop =>
      rw [event_loop_iff] at hr
      rw [hr]
      exact Or.inr ⟨by simpa using hevent.1, by simpa using hevent.2⟩

variable [DecidableEq Thread]

def edgeStep (cap : Nat) (s : EdgePoller Thread) : EdgeAction Thread → Option (EdgePoller Thread)
  | .poller .wake => if s.ready then (step cap s.poller .wake).map (⟨·, false⟩) else none
  | .poller (.write t) =>
      (step cap s.poller (.write t)).map (⟨·, s.ready || decide (s.poller.pipe < cap)⟩)
  | .poller a => (step cap s.poller a).map (⟨·, s.ready⟩)
  | .discard =>
      if s.ready ∧ s.poller.loop = .polling ∧ s.poller.pipe = 0 then
        some { s with ready := false }
      else none

variable {cap : Nat} {a : Action Thread}

/-- A step that neither waits nor writes leaves the ready list alone. -/
theorem edgeStep_poller (hwake : a ≠ .wake) (hwrite : ∀ t, a ≠ .write t) :
    edgeStep cap s (.poller a) = (step cap s.poller a).map (⟨·, s.ready⟩) := by
  cases a with
  | wake => exact (hwake rfl).elim
  | write t => exact (hwrite t rfl).elim
  | _ => rfl

/-- A step of the one is a step of the other, as long as the bytes are noticed. -/
theorem edgeStep_of_step (noticed : Noticed s) (hstep : step cap s.poller a = some p) :
    ∃ ready, edgeStep cap s (.poller a) = some ⟨p, ready⟩ ∧ Noticed ⟨p, ready⟩ := by
  have hmoves := (step_moves hstep).2
  have hother : a ≠ .wake → (∀ t, a ≠ .write t) →
      edgeStep cap s (.poller a) = some ⟨p, s.ready⟩ := by
    intro hwake hwrite
    rw [edgeStep_poller hwake hwrite, hstep]
    rfl
  cases hmoves with
  | sync => exact ⟨s.ready, hother (by simp) (by simp), noticed⟩
  | push => exact ⟨s.ready, hother (by simp) (by simp), noticed.keep rfl (Or.inl rfl)⟩
  | @write t task _ =>
      refine ⟨s.ready || decide (s.poller.pipe < cap),
        by simp only [edgeStep, hstep, Option.map_some], fun hpos => ?_⟩
      by_cases hroom : s.poller.pipe < cap
      · exact Or.inl (by simp [hroom])
      · simp only [written, if_neg hroom] at hpos
        rcases noticed hpos with hready | hreading
        · exact Or.inl (by simp [hready])
        · exact Or.inr hreading
  | wake hloop _ hpipe =>
      have hready : s.ready = true := by
        rcases noticed hpipe with hready | hreading | hreading
        · exact hready
        · rw [hloop] at hreading
          cases hreading
        · rw [hloop] at hreading
          cases hreading
      refine ⟨false, ?_, fun _ => Or.inr (Or.inl rfl)⟩
      rw [edgeStep, if_pos hready, hstep]
      rfl
  | readSome => exact ⟨s.ready, hother (by simp) (by simp), fun _ => Or.inr (Or.inr rfl)⟩
  | readAgain _ hpipe =>
      refine ⟨s.ready, hother (by simp) (by simp), fun hpos => ?_⟩
      exact absurd hpipe (Nat.pos_iff_ne_zero.mp hpos)
  | @swap r hr =>
      refine ⟨s.ready, hother (by simp) (by simp), noticed.setEvent ?_ hr (by simp) ?_⟩
      · cases r <;> rfl
      · rintro rfl
        rfl
  | @begin r task rest hr =>
      refine ⟨s.ready, hother (by simp) (by simp), noticed.setEvent ?_ hr (by simp) ?_⟩
      · cases r <;> rfl
      · rintro rfl
        rfl
  | @finish r outcome task rest hr =>
      refine ⟨s.ready, hother (by simp) (by simp), noticed.setEvent ?_ hr (by simp) ?_⟩
      · cases r <;> rfl
      · rintro rfl
        rfl
  | @leaveEvent r hr =>
      refine ⟨s.ready, hother (by simp) (by simp), noticed.setEvent ?_ hr (by simp) ?_⟩
      · cases r <;> rfl
      · rintro rfl
        rfl
  | exitLoop hloop =>
      refine ⟨s.ready, hother (by simp) (by simp), noticed.keep rfl (Or.inr ?_)⟩
      rw [hloop]
      exact (by simp)
  | shutdown => exact ⟨s.ready, hother (by simp) (by simp), noticed.keep rfl (Or.inl rfl)⟩
  | join => exact ⟨s.ready, hother (by simp) (by simp), noticed.keep rfl (Or.inl rfl)⟩
  | flush => exact ⟨s.ready, hother (by simp) (by simp), noticed.keep rfl (Or.inl rfl)⟩

theorem step_of_edgeStep {t : EdgePoller Thread} (hstep : edgeStep cap s (.poller a) = some t) :
    step cap s.poller a = some t.poller := by
  by_cases hwake : a = .wake
  · subst hwake
    rw [edgeStep, Option.ite_none_right_eq_some, Option.map_eq_some_iff] at hstep
    obtain ⟨-, poller, hpoller, rfl⟩ := hstep
    exact hpoller
  · by_cases hwrite : ∃ t, a = .write t
    · obtain ⟨thread, rfl⟩ := hwrite
      rw [edgeStep, Option.map_eq_some_iff] at hstep
      obtain ⟨poller, hpoller, rfl⟩ := hstep
      exact hpoller
    · rw [edgeStep_poller hwake (not_exists.mp hwrite), Option.map_eq_some_iff] at hstep
      obtain ⟨poller, hpoller, rfl⟩ := hstep
      exact hpoller

/-- `epoll_wait` takes the pipe out of the ready list only when it has no bytes. -/
theorem discard_cases {t : EdgePoller Thread} (hstep : edgeStep cap s .discard = some t) :
    t.poller = s.poller ∧ s.poller.pipe = 0 := by
  rw [edgeStep, Option.ite_none_right_eq_some] at hstep
  obtain ⟨⟨-, -, hpipe⟩, hstep⟩ := hstep
  cases hstep
  exact ⟨rfl, hpipe⟩

theorem noticed_step {b : EdgeAction Thread} {t : EdgePoller Thread}
    (hstep : edgeStep cap s b = some t) (noticed : Noticed s) : Noticed t := by
  cases b with
  | poller a =>
      obtain ⟨ready, hmoves, hnoticed⟩ := edgeStep_of_step noticed (step_of_edgeStep hstep)
      exact Option.some.inj (hstep.symm.trans hmoves) ▸ hnoticed
  | discard =>
      obtain ⟨hpoller, hpipe⟩ := discard_cases hstep
      intro hpos
      rw [hpoller, hpipe] at hpos
      exact absurd hpos (Nat.lt_irrefl 0)

/-- Each system follows the other. -/
theorem edge_follows (p : EventPoller Thread) (a : Action Thread) (p' : EventPoller Thread)
    (s : EdgePoller Thread) (_ : anyStep p a) (hstep : step cap p a = some p')
    (h : s.poller = p ∧ Noticed s) :
    Followed (edgeStep cap) silent (fun p s => s.poller = p ∧ Noticed s) p' (silent p a) s
      (some (EdgeAction.poller a)) := by
  obtain ⟨rfl, noticed⟩ := h
  obtain ⟨ready, hmoves, hnoticed⟩ := edgeStep_of_step noticed hstep
  exact ⟨_, hmoves, ⟨rfl, hnoticed⟩, rfl⟩

theorem level_follows (s : EdgePoller Thread) (b : EdgeAction Thread) (t : EdgePoller Thread)
    (p : EventPoller Thread) (_ : anyStep s b) (hstep : edgeStep cap s b = some t)
    (h : s.poller = p) :
    Followed (step cap) silent (fun s p => s.poller = p) t (silent s b) p b.poller? := by
  obtain rfl := h
  cases b with
  | poller a => exact ⟨_, step_of_edgeStep hstep, rfl, rfl⟩
  | discard => exact ⟨(discard_cases hstep).1, rfl⟩

/-- The runs of a poller whose pipe is reported once for the bytes that arrive are those
of a poller whose pipe is reported as long as it has bytes, and in no state of them does
the one wait for a step that the other could take. -/
theorem edge_iff_level (cap : Nat) (loopThread : Thread) :
    (∀ (as : List (Action Thread)) (p : EventPoller Thread),
      Run (step cap) anyStep (init loopThread) as p ↔
        ∃ bs ready, bs.filterMap EdgeAction.poller? = as ∧
          Run (edgeStep cap) anyStep (edgeInit loopThread) bs ⟨p, ready⟩) ∧
    ∀ (bs : List (EdgeAction Thread)) (s : EdgePoller Thread),
      Run (edgeStep cap) anyStep (edgeInit loopThread) bs s →
        ∀ a, (edgeStep cap s (.poller a)).isSome = (step cap s.poller a).isSome := by
  constructor
  · intro as p
    constructor
    · intro run
      obtain ⟨s, hrun, ⟨rfl, -⟩, -⟩ := run.lockstep edge_follows (t := edgeInit loopThread)
        ⟨rfl, noticed_init loopThread⟩
      refine ⟨_, s.ready, ?_, hrun⟩
      rw [List.filterMap_filterMap]
      exact List.filterMap_some
    · rintro ⟨bs, ready, rfl, run⟩
      obtain ⟨p', hrun, rfl, -⟩ := run.lockstep level_follows (t := init loopThread) rfl
      exact hrun
  · intro bs s run a
    have noticed : Noticed s :=
      run.invariant (fun _ _ _ _ hstep h => noticed_step hstep h) (noticed_init loopThread)
    rw [Bool.eq_iff_iff, Option.isSome_iff_exists, Option.isSome_iff_exists]
    constructor
    · rintro ⟨t, hstep⟩
      exact ⟨_, step_of_edgeStep hstep⟩
    · rintro ⟨p, hstep⟩
      obtain ⟨ready, hmoves, -⟩ := edgeStep_of_step noticed hstep
      exact ⟨_, hmoves⟩

end FFZKit.Poller.TaskHandover

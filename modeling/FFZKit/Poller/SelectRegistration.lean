import FFZKit.Foundations.MapList
import FFZKit.Poller.SelectPoller

/-!
# What the registration calls report

`emplace` drops a record whose fd is registered already, yet `addEvent` returns
0; a negative fd passes the range check; and `delEvent` assigns `fd_count_`
after its completion callback, so an exception leaves the old count behind.
Apart from these three the calls tell the truth.
-/

namespace FFZKit.Poller.SelectPoller

open FFZKit.Foundations FFZKit.Foundations.Transition
open Std (ExtTreeMap)

variable {Callback : Type*}

/-- A call returns or throws in this step. -/
def Call.Ends : Call Callback → Prop
  | .addEvent _ _ _ => True
  | .complete _ => True
  | _ => False

/-- What the calls promise about the state `t` after the step `c` from `s`. -/
structure Truthful (s : EventPoller Callback) (c : Call Callback) (t : EventPoller Callback) :
    Prop where
  added : ∀ fd event cb, c = .addEvent fd event (some cb) →
    (s.addEvent fd event (some cb)).2 = 0 →
      ∃ record, t.eventMap[fd]? = some record ∧ record.event = event ∧ record.callBack = cb
  rejected : ∀ fd event cb, c = .addEvent fd event cb →
    (s.addEvent fd event cb).2 = -1 → t.eventMap = s.eventMap
  registered : ∀ fd event cb, c = .addEvent fd event cb → fd ∈ s.eventMap →
    (s.addEvent fd event cb).2 = -1
  inRange : ∀ fd ∈ t.eventMap, 0 ≤ fd ∧ fd < fdSetSize
  counted : c.Ends → t.fdCount = t.eventMap.size

/-- The step registers a fresh non-negative fd if any, and a call that ends
without assigning `fd_count_` does so while no erasure is unaccounted for. -/
def Honest (s : EventPoller Callback) : Call Callback → Prop
  | .addEvent fd _ (some _) =>
      if fdSetSize ≤ fd then s.unrefreshed = false else 0 ≤ fd ∧ fd ∉ s.eventMap
  | .addEvent _ _ none => s.unrefreshed = false
  | .complete threw =>
      match s.frames with
      | .delEvent _ :: _ => threw = true → s.unrefreshed = false
      | _ => s.unrefreshed = false
  | _ => True

/-- The registered fds are in range, and `fd_count_` is their number, or more
than that after an erasure. -/
structure Sound (s : EventPoller Callback) : Prop where
  inRange : ∀ fd ∈ s.eventMap, 0 ≤ fd ∧ fd < fdSetSize
  refreshed : s.unrefreshed = false → s.fdCount = s.eventMap.size
  erased : s.unrefreshed = true → s.eventMap.size < s.fdCount

theorem sound_init : Sound (init Callback) where
  inRange := by simp [init]
  refreshed := by simp [init]
  erased := by simp [init]

theorem Sound.counted_iff {s : EventPoller Callback} (sound : Sound s) :
    s.fdCount = s.eventMap.size ↔ s.unrefreshed = false := by
  constructor
  · intro hcount
    by_contra hunrefreshed
    have hlt := sound.erased (by simpa using hunrefreshed)
    omega
  · exact sound.refreshed

theorem Sound.addEvent {s : EventPoller Callback} (sound : Sound s) {fd : Int}
    {event : BitVec 32} {cb : Option Callback} (honest : Honest s (.addEvent fd event cb)) :
    Sound (s.addEvent fd event cb).1 := by
  cases cb with
  | none => exact sound
  | some cb =>
      by_cases hlarge : fdSetSize ≤ fd
      · simpa only [EventPoller.addEvent, if_pos hlarge] using sound
      · simp only [Honest, if_neg hlarge] at honest
        simp only [EventPoller.addEvent, if_neg hlarge]
        refine ⟨fun other hother => ?_, fun _ => rfl, nofun⟩
        rcases ExtTreeMap.mem_insertIfNew.mp hother with hnew | hold
        · rw [← Std.LawfulEqCmp.eq_of_compare hnew]
          exact ⟨honest.1, by omega⟩
        · exact sound.inRange other hold

theorem Sound.delEvent {s : EventPoller Callback} (sound : Sound s) (fd : Int) :
    Sound (s.delEvent fd) := by
  unfold EventPoller.delEvent
  split
  · rename_i hfd
    refine ⟨fun other hother => sound.inRange other (ExtTreeMap.mem_of_mem_erase hother), nofun,
      fun _ => ?_⟩
    have hsize := size_erase_add_one hfd
    have hle : s.eventMap.size ≤ s.fdCount := by
      cases hcase : s.unrefreshed with
      | false => exact (sound.refreshed hcase).ge
      | true => exact (sound.erased hcase).le
    simp only
    omega
  · exact ⟨sound.inRange, sound.refreshed, sound.erased⟩

theorem Sound.modifyEvent {s : EventPoller Callback} (sound : Sound s) (fd : Int)
    (event : BitVec 32) : Sound (s.modifyEvent fd event) := by
  unfold EventPoller.modifyEvent
  split
  · rename_i record hrecord
    have hfd : fd ∈ s.eventMap := ExtTreeMap.mem_iff_isSome_getElem?.mpr (by rw [hrecord]; rfl)
    have hsize : (s.eventMap.insert fd { record with event := event }).size = s.eventMap.size := by
      rw [ExtTreeMap.size_insert, if_pos (ExtTreeMap.mem_iff_contains.mp hfd)]
    refine ⟨fun other hother => ?_, ?_, ?_⟩
    · rcases ExtTreeMap.mem_insert.mp hother with hnew | hold
      · rw [← Std.LawfulEqCmp.eq_of_compare hnew]
        exact sound.inRange fd hfd
      · exact sound.inRange other hold
    · simpa only [hsize] using sound.refreshed
    · simpa only [hsize] using sound.erased
  · exact ⟨sound.inRange, sound.refreshed, sound.erased⟩

theorem Sound.complete {s t : EventPoller Callback} (sound : Sound s) {threw : Bool}
    (h : s.complete threw = some t) : Sound t := by
  unfold EventPoller.complete at h
  split at h
  · cases h
  · split at h
    · cases h
      exact ⟨sound.inRange, sound.refreshed, sound.erased⟩
    · cases h
      exact ⟨sound.inRange, fun _ => rfl, nofun⟩
  · cases h
    exact ⟨sound.inRange, sound.refreshed, sound.erased⟩

theorem sound_step {s t : EventPoller Callback} {c : Call Callback} (honest : Honest s c)
    (h : step s c = some t) (sound : Sound s) : Sound t := by
  cases c with
  | addEvent fd event cb => cases h; exact sound.addEvent honest
  | delEvent fd => cases h; exact sound.delEvent fd
  | modifyEvent fd event => cases h; exact sound.modifyEvent fd event
  | complete threw => exact sound.complete h

/-- A rejected `addEvent` changes nothing. -/
theorem addEvent_rejected {s : EventPoller Callback} {fd : Int} {event : BitVec 32}
    {cb : Option Callback} (h : cb = none ∨ fdSetSize ≤ fd) :
    s.addEvent fd event cb = (s, -1) := by
  cases cb with
  | none => rfl
  | some cb =>
      rcases h with h | h
      · cases h
      · simp only [EventPoller.addEvent, if_pos h]

/-- A step that neither adds an event nor ends a call keeps its promises. -/
theorem truthful_of_sound {s t : EventPoller Callback} {c : Call Callback} (sound : Sound t)
    (hadd : ∀ fd event cb, c ≠ .addEvent fd event cb)
    (hcount : c.Ends → t.fdCount = t.eventMap.size) : Truthful s c t where
  added fd event cb hc := (hadd fd event (some cb) hc).elim
  rejected fd event cb hc := (hadd fd event cb hc).elim
  registered fd event cb hc := (hadd fd event cb hc).elim
  inRange := sound.inRange
  counted := hcount

/-- A rejected call reports the number of events of the state that it finds. -/
theorem truthful_rejected_iff {s : EventPoller Callback} (sound : Sound s) {fd : Int}
    {event : BitVec 32} {cb : Option Callback} (hrejected : cb = none ∨ fdSetSize ≤ fd) :
    Truthful s (.addEvent fd event cb) (s.addEvent fd event cb).1 ↔
      Honest s (.addEvent fd event cb) := by
  have heq : s.addEvent fd event cb = (s, -1) := addEvent_rejected hrejected
  have hhonest : Honest s (.addEvent fd event cb) ↔ s.unrefreshed = false := by
    cases cb with
    | none => rfl
    | some cb => simp only [Honest, if_pos (hrejected.resolve_left nofun)]
  rw [hhonest, heq, ← sound.counted_iff]
  constructor
  · intro truthful
    exact truthful.counted trivial
  · intro hcount
    refine ⟨?_, ?_, ?_, sound.inRange, fun _ => hcount⟩
    · intro fd' event' cb' hc hzero
      cases hc
      rw [heq] at hzero
      cases hzero
    · intro _ _ _ _ _
      rfl
    · intro fd' event' cb' hc _
      cases hc
      rw [heq]

/-- An accepted call reports success, so the descriptor must be new and valid. -/
theorem truthful_accepted_iff {s : EventPoller Callback} (sound : Sound s) {fd : Int}
    {event : BitVec 32} {cb : Callback} (hlarge : ¬ fdSetSize ≤ fd) :
    Truthful s (.addEvent fd event (some cb)) (s.addEvent fd event (some cb)).1 ↔
      Honest s (.addEvent fd event (some cb)) := by
  have hret : (s.addEvent fd event (some cb)).2 = 0 := by
    simp only [EventPoller.addEvent, if_neg hlarge]
  constructor
  · intro truthful
    simp only [Honest, if_neg hlarge]
    constructor
    · apply (truthful.inRange fd _).1
      simp only [EventPoller.addEvent, if_neg hlarge]
      exact ExtTreeMap.mem_insertIfNew_self
    · intro hfd
      have hminus := truthful.registered fd event (some cb) rfl hfd
      rw [hret] at hminus
      cases hminus
  · intro honest
    have honest' := honest
    simp only [Honest, if_neg hlarge] at honest'
    refine ⟨?_, ?_, ?_, (sound.addEvent honest).inRange, fun _ => ?_⟩
    · intro fd' event' cb' hc _
      cases hc
      refine ⟨⟨s.created, fd, event, 0, cb⟩, ?_, rfl, rfl⟩
      simp only [EventPoller.addEvent, if_neg hlarge]
      rw [ExtTreeMap.getElem?_insertIfNew, if_pos ⟨Std.ReflCmp.compare_self, honest'.2⟩]
    · intro fd' event' cb' hc hminus
      cases hc
      rw [hret] at hminus
      cases hminus
    · intro fd' event' cb' hc hfd
      cases hc
      exact (honest'.2 hfd).elim
    · simp only [EventPoller.addEvent, if_neg hlarge]

theorem truthful_addEvent_iff {s : EventPoller Callback} (sound : Sound s) (fd : Int)
    (event : BitVec 32) (cb : Option Callback) :
    Truthful s (.addEvent fd event cb) (s.addEvent fd event cb).1 ↔
      Honest s (.addEvent fd event cb) := by
  by_cases hrejected : cb = none ∨ fdSetSize ≤ fd
  · exact truthful_rejected_iff sound hrejected
  · obtain ⟨hcb, hlarge⟩ := not_or.mp hrejected
    obtain ⟨cb, rfl⟩ := Option.ne_none_iff_exists'.mp hcb
    exact truthful_accepted_iff sound hlarge

theorem truthful_complete_iff {s t : EventPoller Callback} (sound : Sound s) {threw : Bool}
    (h : s.complete threw = some t) :
    Truthful s (.complete threw) t ↔ Honest s (.complete threw) := by
  have hsound := sound.complete h
  suffices hcount : t.fdCount = t.eventMap.size ↔ Honest s (.complete threw) by
    rw [← hcount]
    exact ⟨fun truthful => truthful.counted trivial,
      fun heq => truthful_of_sound hsound nofun fun _ => heq⟩
  unfold EventPoller.complete at h
  simp only [Honest]
  split at h
  · cases h
  · rename_i hframes
    split at h
    · rename_i hthrew
      cases h
      simpa [hframes, hthrew] using sound.counted_iff
    · rename_i hreturned
      cases h
      simp [hframes, hreturned]
  · rename_i hframes
    cases h
    simpa [hframes] using sound.counted_iff

/-- A step from a sound state keeps its promises exactly when it is honest. -/
theorem truthful_iff {s t : EventPoller Callback} {c : Call Callback} (sound : Sound s)
    (h : step s c = some t) : Truthful s c t ↔ Honest s c := by
  cases c with
  | addEvent fd event cb =>
      cases h
      exact truthful_addEvent_iff sound fd event cb
  | delEvent fd =>
      cases h
      exact iff_of_true (truthful_of_sound (sound.delEvent fd) nofun nofun) trivial
  | modifyEvent fd event =>
      cases h
      exact iff_of_true (truthful_of_sound (sound.modifyEvent fd event) nofun nofun) trivial
  | complete threw => exact truthful_complete_iff sound h

/-- Every call of a run, nested ones included, keeps its promises exactly when
every call is honest. -/
theorem registration_truthful_iff (cs : List (Call Callback)) (s : EventPoller Callback) :
    Run step (stepsWith step Truthful) (init Callback) cs s ↔
      Run step Honest (init Callback) cs s := by
  symm
  refine Run.congr (P := Sound) (fun _ _ _ honest h sound => sound_step honest h sound) ?_
    sound_init
  intro s c t sound h
  constructor
  · intro honest u hu
    obtain rfl := Option.some.inj (h.symm.trans hu)
    exact (truthful_iff sound h).mpr honest
  · intro truthful
    exact (truthful_iff sound h).mp (truthful t h)

/-- The second `addEvent` returns 0 and drops its mask and its callback. -/
def registeredTwice : List (Call Nat) :=
  [.addEvent 3 1 (some 0), .addEvent 3 2 (some 1)]

theorem registration_lies_registeredTwice :
    ¬ ∀ (cs : List (Call Nat)) (s : EventPoller Nat), Run step anyStep (init Nat) cs s →
      Run step (stepsWith step Truthful) (init Nat) cs s := by
  intro h
  have run : Run step anyStep (init Nat) registeredTwice _ := run_of_exec rfl fun _ _ _ => trivial
  cases h registeredTwice _ run with
  | next _ moves tail =>
      cases moves
      cases tail with
      | next truthful =>
          have hminus := (truthful _ rfl).registered 3 2 (some 1) rfl (by decide)
          revert hminus
          decide

end FFZKit.Poller.SelectPoller

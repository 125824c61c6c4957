import FFZKit.Util.NoticeCenter

/-!
# When a registered listener is in every later snapshot

`delListener` reads that a dispatcher is empty in one locked section and
unlinks it in another, without looking again. A listener inserted in between,
or inserted later by a call that has already looked the dispatcher up, is in
a dispatcher that no emission finds. `Careful` excludes these two steps, and
the erasure of a listener by a call that began before its registration.
-/

namespace FFZKit.Util.NoticeCenter

open FFZKit.Foundations.Transition

variable {Event Tag Func Thread : Type*}

/-- No `delListener` on this tag and event has begun since the registration
began, apart from those that begin after the given time. -/
def Undeleted (deleted : List (Deletion Event Tag)) (r : Registration Event Tag Func)
    (time : Nat) : Prop :=
  ∀ d ∈ deleted, d.event = r.event → d.tag = r.tag → r.began < d.began → time < d.began

instance [DecidableEq Event] [DecidableEq Tag] (deleted : List (Deletion Event Tag))
    (r : Registration Event Tag Func) (time : Nat) : Decidable (Undeleted deleted r time) :=
  inferInstanceAs (Decidable (∀ d ∈ deleted, _))

/-- Every emission has taken every listener of its event whose registration
had returned before the emission began and was not deleted since. -/
def LosesNone (s : State Event Tag Func Thread) : Prop :=
  ∀ r ∈ s.added, ∀ e ∈ s.emissions, e.event = r.event → r.returned < e.began →
    Undeleted s.deleted r e.ended → (r.tag, r.func) ∈ e.snapshot

instance [DecidableEq Event] [DecidableEq Tag] [DecidableEq Func]
    (s : State Event Tag Func Thread) : Decidable (LosesNone s) :=
  inferInstanceAs (Decidable (∀ r ∈ s.added, ∀ e ∈ s.emissions, _))

/-- The steps that lose no listener. An unlinked dispatcher has no listener
and no running `addListener` holds it; and `delListener` erases only listeners
whose registration began before it. -/
structure Careful (s : State Event Tag Func Thread) (a : Action Event Tag Func Thread) :
    Prop where
  unlink : ∀ t event d, a = .delUnlink t → s.threads t = .unlinking event d →
    s.mapListener event = some d → s.dispatchers d = [] ∧
      ∀ u event' tag func began, s.threads u ≠ .adding event' tag func d began
  erase : ∀ t event tag d began, a = .delErase t → s.threads t = .deleting event tag d began →
    ∀ l ∈ s.dispatchers d, l.tag = tag → l.began < began

/-- The element that a registration has inserted. -/
def Registration.listener (r : Registration Event Tag Func) : Listener Tag Func :=
  ⟨r.tag, r.func, r.began⟩

/-- No `delListener` on this tag and event has begun since the registration. -/
def Live (deleted : List (Deletion Event Tag)) (r : Registration Event Tag Func) : Prop :=
  ∀ d ∈ deleted, d.event = r.event → d.tag = r.tag → d.began ≤ r.began

/-- What a running call knows about the dispatcher it holds. -/
def PhaseOk (s : State Event Tag Func Thread) : Phase Event Tag Func → Prop
  | .idle => True
  | .adding event _ _ d _ => s.mapListener event = some d ∧ s.eventOf d = some event
  | .deleting event tag d began => s.eventOf d = some event ∧ ⟨event, tag, began⟩ ∈ s.deleted
  | .unlinking event d => s.eventOf d = some event
  | .emitting event d began => s.eventOf d = some event ∧ began < s.clock ∧
      ∀ r ∈ s.added, r.event = event → r.returned < began → Live s.deleted r →
        r.listener ∈ s.dispatchers d

/-- The invariant of runs whose steps are careful. -/
structure Linked (s : State Event Tag Func Thread) : Prop where
  fresh : ∀ d, s.created ≤ d → s.eventOf d = none
  owned : ∀ event d, s.mapListener event = some d → s.eventOf d = some event
  live : ∀ r ∈ s.added, Live s.deleted r →
    ∃ d, s.mapListener r.event = some d ∧ r.listener ∈ s.dispatchers d
  deletedBefore : ∀ d ∈ s.deleted, d.began ≤ s.clock
  emittedBefore : ∀ e ∈ s.emissions, e.began ≤ s.clock
  phases : ∀ t, PhaseOk s (s.threads t)

theorem linked_init : Linked (init : State Event Tag Func Thread) where
  fresh := fun _ _ => rfl
  owned := by simp [init]
  live := by simp [init]
  deletedBefore := by simp [init]
  emittedBefore := by simp [init]
  phases := fun _ => trivial

theorem losesNone_init : LosesNone (init : State Event Tag Func Thread) := by
  intro r hr
  simp [init] at hr

theorem Live.of_append {deleted more : List (Deletion Event Tag)}
    {r : Registration Event Tag Func} (h : Live (deleted ++ more) r) : Live deleted r :=
  fun d hd => h d (List.mem_append_left _ hd)

/-- An undeleted registration is live as long as no deletion is later than
the given time. -/
theorem Undeleted.live {deleted : List (Deletion Event Tag)} {r : Registration Event Tag Func}
    {time : Nat} (h : Undeleted deleted r time) (hbefore : ∀ d ∈ deleted, d.began ≤ time) :
    Live deleted r := by
  intro d hd hevent htag
  by_contra hlt
  have hlater := h d hd hevent htag (by omega)
  have hle := hbefore d hd
  omega

/-- A tick alone keeps what a running call knows. -/
theorem PhaseOk.goto [DecidableEq Thread] {s : State Event Tag Func Thread}
    {p : Phase Event Tag Func} (h : PhaseOk s p) (t : Thread) (q : Phase Event Tag Func) :
    PhaseOk (s.goto t q) p := by
  cases p with
  | emitting event d began => exact ⟨h.1, Nat.lt_succ_of_lt h.2.1, h.2.2⟩
  | idle => trivial
  | adding => exact h
  | deleting => exact h
  | unlinking => exact h

/-- Moving a program counter keeps the invariant when the new counter is right. -/
theorem Linked.goto [DecidableEq Thread] {s : State Event Tag Func Thread} (h : Linked s)
    (t : Thread) {p : Phase Event Tag Func} (hp : PhaseOk (s.goto t p) p) :
    Linked (s.goto t p) where
  fresh := h.fresh
  owned := h.owned
  live := h.live
  deletedBefore := fun d hd => Nat.le_succ_of_le (h.deletedBefore d hd)
  emittedBefore := fun e he => Nat.le_succ_of_le (h.emittedBefore e he)
  phases := by
    intro u
    by_cases hu : u = t
    · subst hu
      simpa [State.goto] using hp
    · have hold : (s.goto t p).threads u = s.threads u := by simp [State.goto, hu]
      rw [hold]
      exact (h.phases u).goto t p

/-- The start of a deletion only makes registrations no longer live. -/
theorem Linked.logDeleted {s : State Event Tag Func Thread} (h : Linked s) (event : Event)
    (tag : Tag) : Linked (s.logDeleted ⟨event, tag, s.clock⟩) where
  fresh := h.fresh
  owned := h.owned
  live := fun r hr hlive => h.live r hr hlive.of_append
  deletedBefore := by
    intro d hd
    rcases List.mem_append.mp hd with hd | hd
    · exact h.deletedBefore d hd
    · rw [List.mem_singleton.mp hd]
      exact Nat.le_refl _
  emittedBefore := h.emittedBefore
  phases := by
    intro t
    have ht := h.phases t
    change PhaseOk (s.logDeleted ⟨event, tag, s.clock⟩) (s.threads t)
    cases hp : s.threads t with
    | deleting event' tag' d began =>
        rw [hp] at ht
        exact ⟨ht.1, List.mem_append_left _ ht.2⟩
    | emitting event' d began =>
        rw [hp] at ht
        exact ⟨ht.1, ht.2.1, fun r hr he hb hlive => ht.2.2 r hr he hb hlive.of_append⟩
    | idle => trivial
    | adding => rw [hp] at ht; exact ht
    | unlinking => rw [hp] at ht; exact ht

theorem Linked.logEmission {s : State Event Tag Func Thread} (h : Linked s)
    {e : Emission Event Tag Func} (hbegan : e.began ≤ s.clock) : Linked (s.logEmission e) where
  fresh := h.fresh
  owned := h.owned
  live := h.live
  deletedBefore := h.deletedBefore
  emittedBefore := by
    intro e' he'
    rcases List.mem_append.mp he' with he' | he'
    · exact h.emittedBefore e' he'
    · rw [List.mem_singleton.mp he']
      exact hbegan
  phases := by
    intro t
    have ht := h.phases t
    change PhaseOk (s.logEmission e) (s.threads t)
    cases hp : s.threads t <;> rw [hp] at ht <;> exact ht

/-- A dispatcher that has an event is not the next one to be created. -/
theorem Linked.ne_created {s : State Event Tag Func Thread} (h : Linked s) {event : Event}
    {d : Nat} (hd : s.eventOf d = some event) : d ≠ s.created := by
  rintro rfl
  simp [h.fresh _ (Nat.le_refl _)] at hd

/-- A new emission that has taken all live listeners keeps the law. -/
theorem LosesNone.logEmission {s : State Event Tag Func Thread} (h : LosesNone s)
    {e : Emission Event Tag Func} (hnew : ∀ r ∈ s.added, e.event = r.event →
      r.returned < e.began → Undeleted s.deleted r e.ended → (r.tag, r.func) ∈ e.snapshot) :
    LosesNone (s.logEmission e) := by
  intro r hr e' he'
  rcases List.mem_append.mp he' with he' | he'
  · exact h r hr e' he'
  · rw [List.mem_singleton.mp he']
    exact hnew r hr

/-- A new deletion relieves the law, which only asks for undeleted listeners. -/
theorem LosesNone.logDeleted {s : State Event Tag Func Thread} (h : LosesNone s)
    (d : Deletion Event Tag) : LosesNone (s.logDeleted d) :=
  fun r hr e he hevent hbefore hkept =>
    h r hr e he hevent hbefore fun d' hd' => hkept d' (List.mem_append_left _ hd')

variable [DecidableEq Event]

theorem Linked.eventOf_create {s : State Event Tag Func Thread} (h : Linked s)
    {event event' : Event} {d : Nat} (hd : s.eventOf d = some event') :
    (s.createDispatcher event).eventOf d = some event' := by
  simpa [State.createDispatcher, h.ne_created hd] using hd

theorem mapListener_create {s : State Event Tag Func Thread} {event event' : Event} {d : Nat}
    (hmap : s.mapListener event = none) (hd : s.mapListener event' = some d) :
    (s.createDispatcher event).mapListener event' = some d := by
  have he : event' ≠ event := by
    rintro rfl
    simp [hmap] at hd
  simpa [State.createDispatcher, he] using hd

/-- A new dispatcher is created for an event that had none, so no live
registration and no running `addListener` is concerned. -/
theorem Linked.createDispatcher {s : State Event Tag Func Thread} (h : Linked s) {event : Event}
    (hmap : s.mapListener event = none) : Linked (s.createDispatcher event) where
  fresh := by
    intro d hd
    have hne : d ≠ s.created := by
      rintro rfl
      exact absurd hd (Nat.not_succ_le_self _)
    simp only [State.createDispatcher, Function.update_of_ne hne]
    exact h.fresh d (Nat.le_of_succ_le hd)
  owned := by
    intro event' d hd
    by_cases he : event' = event
    · subst he
      obtain rfl : s.created = d := by simpa [State.createDispatcher] using hd
      simp [State.createDispatcher]
    · have hold : s.mapListener event' = some d := by
        simpa [State.createDispatcher, he] using hd
      exact h.eventOf_create (h.owned event' d hold)
  live := by
    intro r hr hlive
    obtain ⟨d, hd, hmem⟩ := h.live r hr hlive
    have hne := h.ne_created (h.owned _ _ hd)
    refine ⟨d, mapListener_create hmap hd, ?_⟩
    simpa [State.createDispatcher, hne] using hmem
  deletedBefore := h.deletedBefore
  emittedBefore := h.emittedBefore
  phases := by
    intro t
    have ht := h.phases t
    change PhaseOk (s.createDispatcher event) (s.threads t)
    cases hp : s.threads t with
    | idle => trivial
    | adding event' tag func d began =>
        rw [hp] at ht
        exact ⟨mapListener_create hmap ht.1, h.eventOf_create ht.2⟩
    | deleting event' tag d began =>
        rw [hp] at ht
        exact ⟨h.eventOf_create ht.1, ht.2⟩
    | unlinking event' d =>
        rw [hp] at ht
        exact h.eventOf_create ht
    | emitting event' d began =>
        rw [hp] at ht
        have hne := h.ne_created ht.1
        refine ⟨h.eventOf_create ht.1, ht.2.1, fun r hr he hb hlive => ?_⟩
        simpa [State.createDispatcher, hne] using ht.2.2 r hr he hb hlive

omit [DecidableEq Event] in
theorem mem_insertListener (s : State Event Tag Func Thread) (d d' : Nat)
    {l m : Listener Tag Func} (h : m ∈ s.dispatchers d) :
    m ∈ (s.insertListener d' l).dispatchers d := by
  by_cases hd : d = d'
  · subst hd
    simp [State.insertListener, h]
  · simp [State.insertListener, hd, h]

omit [DecidableEq Event] in
/-- The insertion of a listener into a linked dispatcher completes its
registration. -/
theorem Linked.addInsert {s : State Event Tag Func Thread} (h : Linked s) {t : Thread}
    {event : Event} {tag : Tag} {func : Func} {d began : Nat}
    (hphase : s.threads t = .adding event tag func d began) :
    Linked ((s.insertListener d ⟨tag, func, began⟩).logAdded
      ⟨event, tag, func, began, s.clock⟩) where
  fresh := h.fresh
  owned := h.owned
  live := by
    intro r hr hlive
    rcases List.mem_append.mp hr with hr | hr
    · obtain ⟨d', hd', hmem⟩ := h.live r hr hlive
      exact ⟨d', hd', mem_insertListener s d' d hmem⟩
    · obtain rfl := List.mem_singleton.mp hr
      have hlinked := h.phases t
      rw [hphase] at hlinked
      exact ⟨d, hlinked.1, by simp [State.logAdded, State.insertListener, Registration.listener]⟩
  deletedBefore := h.deletedBefore
  emittedBefore := h.emittedBefore
  phases := by
    intro u
    have hu := h.phases u
    change PhaseOk _ (s.threads u)
    cases hp : s.threads u with
    | emitting event' d' began' =>
        rw [hp] at hu
        refine ⟨hu.1, hu.2.1, fun r hr he hb hlive => ?_⟩
        rcases List.mem_append.mp hr with hr | hr
        · exact mem_insertListener s d' d (hu.2.2 r hr he hb hlive)
        · obtain rfl := List.mem_singleton.mp hr
          exact absurd (Nat.lt_trans hb hu.2.1) (Nat.lt_irrefl _)
    | idle => trivial
    | adding => rw [hp] at hu; exact hu
    | deleting => rw [hp] at hu; exact hu
    | unlinking => rw [hp] at hu; exact hu

variable [DecidableEq Tag]

omit [DecidableEq Event] in
/-- A careful erasure spares the listeners of live registrations. -/
theorem Linked.mem_eraseTag {s : State Event Tag Func Thread} (h : Linked s) {t : Thread}
    {event : Event} {tag : Tag} {d began : Nat}
    (hphase : s.threads t = .deleting event tag d began)
    (herase : ∀ l ∈ s.dispatchers d, l.tag = tag → l.began < began)
    {r : Registration Event Tag Func} (hlive : Live s.deleted r) {d' : Nat}
    (howner : s.eventOf d' = some r.event) (hmem : r.listener ∈ s.dispatchers d') :
    r.listener ∈ (s.eraseTag d tag).dispatchers d' := by
  by_cases hd : d' = d
  · subst hd
    have hdel := h.phases t
    rw [hphase] at hdel
    have hevent : event = r.event := Option.some.inj (hdel.1.symm.trans howner)
    have htag : r.tag ≠ tag := by
      intro htag
      have hlate := herase r.listener hmem htag
      have hearly := hlive _ hdel.2 hevent htag.symm
      exact absurd hlate (Nat.not_lt.mpr hearly)
    simp only [State.eraseTag, Function.update_self, List.mem_filter]
    exact ⟨hmem, decide_eq_true htag⟩
  · simpa [State.eraseTag, hd] using hmem

omit [DecidableEq Event] in
theorem Linked.eraseTag {s : State Event Tag Func Thread} (h : Linked s) {t : Thread}
    {event : Event} {tag : Tag} {d began : Nat}
    (hphase : s.threads t = .deleting event tag d began)
    (herase : ∀ l ∈ s.dispatchers d, l.tag = tag → l.began < began) :
    Linked (s.eraseTag d tag) where
  fresh := h.fresh
  owned := h.owned
  live := by
    intro r hr hlive
    obtain ⟨d', hd', hmem⟩ := h.live r hr hlive
    exact ⟨d', hd', h.mem_eraseTag hphase herase hlive (h.owned _ _ hd') hmem⟩
  deletedBefore := h.deletedBefore
  emittedBefore := h.emittedBefore
  phases := by
    intro u
    have hu := h.phases u
    change PhaseOk _ (s.threads u)
    cases hp : s.threads u with
    | emitting event' d' began' =>
        rw [hp] at hu
        refine ⟨hu.1, hu.2.1, fun r hr he hb hlive => ?_⟩
        exact h.mem_eraseTag hphase herase hlive (he ▸ hu.1) (hu.2.2 r hr he hb hlive)
    | idle => trivial
    | adding => rw [hp] at hu; exact hu
    | deleting => rw [hp] at hu; exact hu
    | unlinking => rw [hp] at hu; exact hu

omit [DecidableEq Tag] in
/-- A careful unlinking concerns no live registration and no running
`addListener`. -/
theorem Linked.delDispatcher {s : State Event Tag Func Thread} (h : Linked s) {event : Event}
    {d : Nat} (hunlink : s.mapListener event = some d → s.dispatchers d = [] ∧
      ∀ u event' tag func began, s.threads u ≠ .adding event' tag func d began) :
    Linked (s.delDispatcher event d) := by
  unfold State.delDispatcher
  split
  · rename_i hmap
    obtain ⟨hempty, hholders⟩ := hunlink hmap
    have hkeep : ∀ event' d', event' ≠ event → s.mapListener event' = some d' →
        Function.update s.mapListener event none event' = some d' := by
      intro event' d' hne hd'
      rw [Function.update_of_ne hne]
      exact hd'
    refine ⟨h.fresh, ?_, ?_, h.deletedBefore, h.emittedBefore, ?_⟩
    · intro event' d' hd'
      by_cases he : event' = event
      · simp [he] at hd'
      · exact h.owned event' d' (by simpa [he] using hd')
    · intro r hr hlive
      obtain ⟨d', hd', hmem⟩ := h.live r hr hlive
      have he : r.event ≠ event := by
        rintro rfl
        obtain rfl := Option.some.inj (hmap.symm.trans hd')
        simp [hempty] at hmem
      exact ⟨d', hkeep _ _ he hd', hmem⟩
    · intro u
      have hu := h.phases u
      change PhaseOk _ (s.threads u)
      cases hp : s.threads u with
      | adding event' tag func d' began =>
          rw [hp] at hu
          have he : event' ≠ event := by
            rintro rfl
            obtain rfl := Option.some.inj (hmap.symm.trans hu.1)
            exact hholders u _ _ _ _ hp
          exact ⟨hkeep _ _ he hu.1, hu.2⟩
      | idle => trivial
      | emitting => rw [hp] at hu; exact hu
      | deleting => rw [hp] at hu; exact hu
      | unlinking => rw [hp] at hu; exact hu
  · exact h

variable [DecidableEq Thread]

/-- Every careful step keeps the invariant. -/
theorem linked_step {s s' : State Event Tag Func Thread} {a : Action Event Tag Func Thread}
    (hcareful : Careful s a) (hstep : step s a = some s') (h : Linked s) : Linked s' := by
  cases step_moves hstep with
  | addFound _ hmap => exact h.goto _ ⟨hmap, h.owned _ _ hmap⟩
  | addCreated _ hmap =>
      refine (h.createDispatcher hmap).goto _ ?_
      simp [PhaseOk, State.goto, State.createDispatcher]
  | addInsert hphase => exact (h.addInsert hphase).goto _ trivial
  | delFound _ hmap =>
      refine (h.logDeleted _ _).goto _ ⟨h.owned _ _ hmap, ?_⟩
      simp [State.goto, State.logDeleted]
  | delMissing => exact (h.logDeleted _ _).goto _ trivial
  | @delErase t event tag d began hphase =>
      refine (h.eraseTag hphase (hcareful.erase _ _ _ _ _ rfl hphase)).goto _ ?_
      have hd := h.phases t
      rw [hphase] at hd
      unfold State.afterErase
      split
      · exact hd.1
      · trivial
  | delUnlink hphase =>
      exact (h.delDispatcher (hcareful.unlink _ _ _ rfl hphase)).goto _ trivial
  | emitFound _ hmap =>
      refine h.goto _ ⟨h.owned _ _ hmap, Nat.lt_succ_self _, fun r hr he _ hlive => ?_⟩
      obtain ⟨d', hd', hmem⟩ := h.live r hr hlive
      rw [he, hmap] at hd'
      obtain rfl := Option.some.inj hd'
      exact hmem
  | emitMissing => exact (h.logEmission (Nat.le_refl _)).goto _ trivial
  | @emitSnapshot t event d began hphase =>
      have hemit := h.phases t
      rw [hphase] at hemit
      exact (h.logEmission (Nat.le_of_lt hemit.2.1)).goto _ trivial

/-- A careful step keeps the law: an emission that finds no dispatcher has no
live listener to take, and one that finds a dispatcher takes them all. -/
theorem losesNone_step {s s' : State Event Tag Func Thread} {a : Action Event Tag Func Thread}
    (hstep : step s a = some s') (hl : Linked s) (h : LosesNone s) : LosesNone s' := by
  cases step_moves hstep with
  | addFound => exact h
  | addCreated => exact h
  | addInsert =>
      intro r hr e he hevent hbefore hkept
      rcases List.mem_append.mp hr with hr | hr
      · exact h r hr e he hevent hbefore hkept
      · obtain rfl := List.mem_singleton.mp hr
        exact absurd hbefore (Nat.not_lt.mpr (hl.emittedBefore e he))
  | delFound => exact h.logDeleted _
  | delMissing => exact h.logDeleted _
  | delErase => exact h
  | @delUnlink t event d =>
      unfold State.delDispatcher
      split
      · exact h
      · exact h
  | emitFound => exact h
  | @emitMissing t event _ hmap =>
      refine h.logEmission fun r hr hevent _ hkept => ?_
      obtain ⟨d, hd, _⟩ := hl.live r hr (hkept.live hl.deletedBefore)
      have hevent : event = r.event := hevent
      rw [← hevent, hmap] at hd
      cases hd
  | @emitSnapshot t event d began hphase =>
      refine h.logEmission fun r hr hevent hbefore hkept => ?_
      have hemit := hl.phases t
      rw [hphase] at hemit
      have hmem := hemit.2.2 r hr hevent.symm hbefore (hkept.live hl.deletedBefore)
      exact List.mem_map.mpr ⟨r.listener, hmem, rfl⟩

/-- Any number of threads, in any interleaving of careful steps, lose no
listener. -/
theorem noticeCenter_losesNone {as : List (Action Event Tag Func Thread)}
    {s : State Event Tag Func Thread} (run : Run step Careful init as s) : LosesNone s := by
  have hend : Linked s ∧ LosesNone s :=
    run.invariant (P := fun s => Linked s ∧ LosesNone s)
      (fun _ _ _ hcareful hstep h =>
        ⟨linked_step hcareful hstep h.1, losesNone_step hstep h.1 h.2⟩)
      ⟨linked_init, losesNone_init⟩
  exact hend.2

/-- One thread deletes a tag that is not registered while another emits. -/
def otherTag : List (Action Nat Nat Nat Nat) :=
  [.addLookup 1 0 1 10, .addInsert 1, .delLookup 2 0 5, .emitLookup 3 0, .delErase 2,
    .emitSnapshot 3]

theorem noticeCenter_losesNone_otherTag :
    ∃ s, exec step init otherTag = some s ∧ s.emissions = [⟨0, 3, 5, [(1, 10)]⟩] ∧
      LosesNone s := by
  refine ⟨_, rfl, rfl, ?_⟩
  have lookups : ∀ s a, (∀ t, a ≠ .delErase t) → (∀ t, a ≠ .delUnlink t) →
      Careful (s : State Nat Nat Nat Nat) a :=
    fun s a herase hunlink =>
      ⟨fun t _ _ ha => absurd ha (hunlink t), fun t _ _ _ _ ha => absurd ha (herase t)⟩
  refine noticeCenter_losesNone (?_ : Run step Careful init otherTag _)
  refine .next (lookups _ _ (by simp) (by simp)) rfl ?_
  refine .next (lookups _ _ (by simp) (by simp)) rfl ?_
  refine .next (lookups _ _ (by simp) (by simp)) rfl ?_
  refine .next (lookups _ _ (by simp) (by simp)) rfl ?_
  refine .next ⟨by simp, ?_⟩ rfl (.next (lookups _ _ (by simp) (by simp)) rfl .halt)
  intro t event tag d began ht hphase
  cases ht
  cases hphase
  decide

/-- Thread 2 deletes the only listener of event 0. Before it unlinks the empty
dispatcher, thread 3 inserts another listener there. -/
def unlinkRace : List (Action Nat Nat Nat Nat) :=
  [.addLookup 1 0 1 10, .addInsert 1, .delLookup 2 0 1, .addLookup 3 0 2 20, .delErase 2,
    .addInsert 3, .delUnlink 2, .emitLookup 4 0]

/-- The listener of tag 2 is never deleted, and the emission does not take it. -/
theorem noticeCenter_loses_unlinkRace :
    ¬ ∀ (as : List (Action Nat Nat Nat Nat)) (s : State Nat Nat Nat Nat),
      Run step anyStep init as s → LosesNone s := by
  intro h
  have hnone := h unlinkRace _ (run_of_exec rfl (fun _ _ _ => trivial))
  exact absurd hnone (by decide)

end FFZKit.Util.NoticeCenter

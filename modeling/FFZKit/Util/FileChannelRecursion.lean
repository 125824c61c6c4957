import FFZKit.Util.FileChannel
import FFZKit.Util.LogAccounting
import Mathlib.Tactic.Push

/-!
# The recursion of `FileChannel::write`

As long as no `FileChannel` changes its file, the logger is one whose channels
log nothing. `changeFile` logs its error before `checkSize` sets
`_last_check_time`, so that the check is made again for the error, finds the
closed stream too large and changes the file once more. With a file that
cannot be opened this does not end.
-/

namespace FFZKit.Util

open Logger

namespace FileChannel

/-- For a message of this time the file is not changed. -/
def Keeps (zone : Zone) (answer : Nat → Nat) (chn : FileChannel) (second : Int) : Prop :=
  getDay zone second = chn.lastDay ∧
    (60 < second - chn.lastCheckTime → chn.size (answer chn.queries) ≤ chn.limit)

/-- What a message of this time leaves behind when the file is not changed. -/
def checked (chn : FileChannel) (second : Int) : FileChannel :=
  if 60 < second - chn.lastCheckTime then
    { chn with queries := chn.queries + 1, lastCheckTime := second }
  else chn

/-- For messages of these times the file is not changed. -/
def KeepsAll (zone : Zone) (answer : Nat → Nat) : FileChannel → List Int → Prop
  | _, [] => True
  | chn, second :: seconds =>
      chn.Keeps zone answer second ∧ (chn.checked second).KeepsAll zone answer seconds

/-- The channel after a message for which the file is not changed. -/
def wrote (chn : FileChannel) (ctx : LogContext) : FileChannel :=
  if (chn.checked ctx.tv.sec).canWrite then (chn.checked ctx.tv.sec).record ctx
  else chn.checked ctx.tv.sec

variable {zone : Zone} {answer : Nat → Nat}

theorem checked_record (chn : FileChannel) (ctx : LogContext) (second : Int) :
    (chn.record ctx).checked second = (chn.checked second).record ctx := by
  by_cases hlevel : ctx.level.toNat < chn.level.toNat
  · by_cases hcheck : 60 < second - chn.lastCheckTime
    · simp [record, checked, hlevel, hcheck]
    · simp [record, checked, hlevel, hcheck]
  · by_cases hcheck : 60 < second - chn.lastCheckTime
    · simp [record, checked, hlevel, hcheck]
    · simp [record, checked, hlevel, hcheck]

theorem keeps_record_iff (chn : FileChannel) (ctx : LogContext) (second : Int) :
    (chn.record ctx).Keeps zone answer second ↔ chn.Keeps zone answer second := by
  rw [record]
  split <;> rfl

/-- What was written has no effect on what changes the file. -/
theorem keepsAll_record_iff (chn : FileChannel) (ctx : LogContext) (seconds : List Int) :
    (chn.record ctx).KeepsAll zone answer seconds ↔ chn.KeepsAll zone answer seconds := by
  induction seconds generalizing chn with
  | nil => exact Iff.rfl
  | cons second seconds ih =>
      rw [KeepsAll, KeepsAll, keeps_record_iff, checked_record, ih]

theorem keepsAll_wrote_iff (chn : FileChannel) (ctx : LogContext) (seconds : List Int) :
    (chn.wrote ctx).KeepsAll zone answer seconds ↔
      (chn.checked ctx.tv.sec).KeepsAll zone answer seconds := by
  rw [wrote]
  split
  · exact keepsAll_record_iff _ _ _
  · exact Iff.rfl

theorem lastCheckTime_record (chn : FileChannel) (ctx : LogContext) :
    (chn.record ctx).lastCheckTime = chn.lastCheckTime := by
  rw [record]
  split <;> rfl

theorem lastCheckTime_wrote (chn : FileChannel) (ctx : LogContext) :
    (chn.wrote ctx).lastCheckTime = chn.lastCheckTime ∨
      (chn.wrote ctx).lastCheckTime = ctx.tv.sec := by
  have hwrote : (chn.wrote ctx).lastCheckTime = (chn.checked ctx.tv.sec).lastCheckTime := by
    rw [wrote]
    split
    · exact lastCheckTime_record _ _
    · rfl
  rw [hwrote, checked]
  split
  · exact Or.inr rfl
  · exact Or.inl rfl

/-- The largest `size_t`, which a closed stream has, is above every limit. -/
theorem limit_lt_size {chn : FileChannel} (hclosed : chn.isOpen = false) (size : Nat) :
    chn.limit < chn.size size := by
  have hsize : chn.size size = 2 ^ 64 - 1 := if_neg (by simp [hclosed])
  rw [hsize, limit]
  omega

/-- A channel with a closed stream that keeps its file is not checked. -/
theorem Keeps.checked_eq {chn : FileChannel} {second : Int}
    (hkeeps : chn.Keeps zone answer second) (hclosed : chn.isOpen = false) :
    chn.checked second = chn := by
  refine if_neg fun hcheck => ?_
  exact absurd (hkeeps.2 hcheck) (Nat.not_le.mpr (limit_lt_size hclosed _))

/-- A channel with a closed stream writes nothing. -/
theorem Keeps.wrote_eq {chn : FileChannel} {ctx : LogContext}
    (hkeeps : chn.Keeps zone answer ctx.tv.sec) (hclosed : chn.isOpen = false) :
    chn.wrote ctx = chn := by
  have hwrite : chn.canWrite = false := by
    by_contra hwrite
    rw [chn.writable (by simpa using hwrite)] at hclosed
    cases hclosed
  rw [wrote, hkeeps.checked_eq hclosed, hwrite]
  rfl

end FileChannel

namespace Channel

variable {Silent : Type*}

def Keeps (zone : Zone) (answer : Nat → Nat) (second : Int) : Channel Silent → Prop
  | .silent _ => True
  | .file chn => chn.Keeps zone answer second

def KeepsAll (zone : Zone) (answer : Nat → Nat) (seconds : List Int) : Channel Silent → Prop
  | .silent _ => True
  | .file chn => chn.KeepsAll zone answer seconds

/-- The channel after a message, when the file is not changed. -/
def accept (put : Silent → LogContext → Silent) : Channel Silent → LogContext → Channel Silent
  | .silent chn, ctx => .silent (put chn ctx)
  | .file chn, ctx => .file (chn.wrote ctx)

/-- A `FileChannel` without an open stream whose check is due at `second`. -/
def Shut (second : Int) (chn : Channel Silent) : Prop :=
  ∃ file, chn = .file file ∧ file.isOpen = false ∧ 60 < second - file.lastCheckTime

variable {zone : Zone} {answer : Nat → Nat} {put : Silent → LogContext → Silent}

theorem keepsAll_nil (chn : Channel Silent) : chn.KeepsAll zone answer [] := by
  cases chn <;> exact trivial

theorem keepsAll_singleton_iff {chn : Channel Silent} {second : Int} :
    chn.KeepsAll zone answer [second] ↔ chn.Keeps zone answer second := by
  cases chn with
  | silent chn => exact Iff.rfl
  | file chn => exact and_iff_left trivial

variable (put) in
theorem keepsAll_cons_iff {chn : Channel Silent} {ctx : LogContext} {seconds : List Int} :
    chn.KeepsAll zone answer (ctx.tv.sec :: seconds) ↔
      chn.Keeps zone answer ctx.tv.sec ∧ (chn.accept put ctx).KeepsAll zone answer seconds := by
  cases chn with
  | silent chn => exact ⟨fun _ => ⟨trivial, trivial⟩, fun _ => trivial⟩
  | file chn => exact and_congr_right fun _ => (FileChannel.keepsAll_wrote_iff chn ctx seconds).symm

/-- Nothing but a change of the file opens a stream. -/
theorem Shut.accept {second : Int} {chn : Channel Silent} (hshut : chn.Shut second)
    {ctx : LogContext} (hkeeps : chn.Keeps zone answer ctx.tv.sec) :
    (chn.accept put ctx).Shut second := by
  obtain ⟨file, rfl, hclosed, hcheck⟩ := hshut
  exact ⟨file, congrArg Channel.file (FileChannel.Keeps.wrote_eq hkeeps hclosed), hclosed, hcheck⟩

/-- When the check is due the file is changed. -/
theorem Shut.not_keepsAll {second : Int} {chn : Channel Silent} (hshut : chn.Shut second)
    {seconds : List Int} (hmem : second ∈ seconds) : ¬ chn.KeepsAll zone answer seconds := by
  obtain ⟨file, rfl, hclosed, hcheck⟩ := hshut
  intro hkeeps
  change file.KeepsAll zone answer seconds at hkeeps
  induction seconds with
  | nil => cases hmem
  | cons t seconds ih =>
      obtain ⟨hfirst, hrest⟩ := hkeeps
      rcases List.mem_cons.mp hmem with rfl | hmem
      · exact absurd (hfirst.2 hcheck) (Nat.not_le.mpr (FileChannel.limit_lt_size hclosed _))
      · rw [hfirst.checked_eq hclosed] at hrest
        exact ih hmem hrest

end Channel

namespace Logger

variable {n : Nat} {Silent : Type*} {zone : Zone} {env : Env n}
  {put : Silent → LogContext → Silent}
  {nested : Logger n (Channel Silent) → Nat → Option (Logger n (Channel Silent))}

/-! ## Deliveries that change no file -/

theorem checkSize_of_keeps {S : Logger n (Channel Silent)} {i : Option (Fin n)}
    {chn : FileChannel} {second : Int} (hchn : S.channels i = .file chn)
    (hkeeps : chn.Keeps zone (env.sizes i) second) :
    checkSize zone env nested S i chn second =
      some (S.setChannel i (.file (chn.checked second))) := by
  rw [checkSize, FileChannel.checked]
  split
  next hcheck =>
    dsimp only
    rw [if_neg (Nat.not_lt.mpr (hkeeps.2 hcheck)), Option.map_some,
      modifyFile_eq (channels_setChannel_self S i _), setChannel_setChannel]
  next => rw [setChannel_eq_self hchn]

/-- A channel that keeps its file logs nothing. -/
theorem deliver_of_keeps {S : Logger n (Channel Silent)} {i : Option (Fin n)} {ref : Ref}
    (hkeeps : (S.channels i).Keeps zone (env.sizes i) (S.deref ref).tv.sec) :
    deliver zone env nested put S i ref = silent (Channel.accept put) S i ref := by
  cases hchn : S.channels i with
  | silent chn =>
      rw [deliver, hchn, silent, hchn]
      rfl
  | file chn =>
      rw [hchn] at hkeeps
      have hday : ¬ getDay zone (S.deref ref).tv.sec ≠ chn.lastDay := not_not.mpr hkeeps.1
      rw [deliver, hchn, silent, hchn]
      dsimp only
      rw [writeFile, if_neg hday, checkSize_of_keeps hchn hkeeps, Option.map_some,
        modifyFile_eq (channels_setChannel_self S i _), setChannel_setChannel]
      rfl

theorem foldlM_of_keeps (l : List (Option (Fin n))) (hl : l.Nodup) {S : Logger n (Channel Silent)}
    {ref : Ref} (hkeeps : ∀ i ∈ l, (S.channels i).Keeps zone (env.sizes i) (S.deref ref).tv.sec) :
    l.foldlM (fun S i => deliver zone env nested put S i ref) S =
      l.foldlM (fun S i => silent (Channel.accept put) S i ref) S := by
  induction l generalizing S with
  | nil => rfl
  | cons i l ih =>
      obtain ⟨hi, hl⟩ := List.nodup_cons.mp hl
      rw [List.foldlM_cons, List.foldlM_cons, deliver_of_keeps (hkeeps i List.mem_cons_self),
        silent, Option.bind_eq_bind, Option.bind_some, Option.bind_some]
      refine ih hl fun j hj => ?_
      have hne : j ≠ i := ne_of_mem_of_not_mem hj hi
      have hother := channels_setChannel_of_ne S ((S.channels i).accept put (S.deref ref)) hne
      exact hother ▸ hkeeps j (List.mem_cons_of_mem i hj)

/-- When every channel keeps its file the channels are given the message. -/
theorem writeChannels_l_of_keeps {S : Logger n (Channel Silent)} (ref : Ref)
    (hkeeps : ∀ i ∈ recipients n,
      (S.channels i).Keeps zone (env.sizes i) (S.deref ref).tv.sec) :
    writeChannels_l (deliver zone env nested put) S ref =
      some (handed (Channel.accept put) S ref) := by
  rw [← writeChannels_l_silent, writeChannels_l, writeChannels_l]
  congr 1
  exact foldlM_of_keeps (recipients n) (nodup_recipients n) hkeeps

/-- The messages that `writeChannels` gives to the channels. -/
def delivered (S : Logger n (Channel Silent)) (p : Nat) : List LogContext :=
  if (S.heap p).Repeats S.last then
    if 500 < timevalDiff S.last.tv (S.heap p).tv then [S.heap p] else []
  else if S.last.repeat_ = 0 then [S.heap p]
  else [S.last, S.heap p]

/-- No `FileChannel` changes its file for what is given to it. -/
def Steady (zone : Zone) (sizes : Option (Fin n) → Nat → Nat) (S : Logger n (Channel Silent))
    (p : Nat) : Prop :=
  ∀ i ∈ recipients n, (S.channels i).KeepsAll zone (sizes i)
    ((delivered S p).map fun ctx => ctx.tv.sec)

theorem tv_handed {Channel : Type*} {put : Channel → LogContext → Channel} (S : Logger n Channel)
    (ref : Ref) (q : Nat) : ((handed put S ref).heap q).tv = (S.heap q).tv := by
  rw [heap_handed, tv_setRepeat]

/-- While no file is changed the logger is one whose channels log nothing. -/
theorem writeChannels_of_steady {S : Logger n (Channel Silent)} {p : Nat}
    (steady : Steady zone env.sizes S p) :
    writeChannels (deliver zone env nested put) S p =
      writeChannels (silent (Channel.accept put)) S p := by
  rw [Steady, delivered] at steady
  by_cases hrep : (S.heap p).Repeats S.last
  · rw [if_pos hrep] at steady
    rw [writeChannels_repeated hrep, writeChannels_repeated hrep]
    by_cases hlate : 500 < timevalDiff S.last.tv (S.heap p).tv
    · rw [if_pos hlate] at steady
      rw [if_pos hlate, if_pos hlate, writeChannels_l_silent]
      refine writeChannels_l_of_keeps (.ptr p) fun i hi => ?_
      rw [deref, pointer, tv_setRepeat, tv_setRepeat]
      exact Channel.keepsAll_singleton_iff.mp (steady i hi)
    · rw [if_neg hlate, if_neg hlate]
  · rw [if_neg hrep] at steady
    rw [writeChannels_different hrep, writeChannels_different hrep]
    by_cases hcount : S.last.repeat_ = 0
    · rw [if_pos hcount] at steady
      rw [if_pos hcount, if_pos hcount, Option.bind_some, Option.bind_some,
        writeChannels_l_silent]
      exact writeChannels_l_of_keeps (.ptr p) fun i hi =>
        Channel.keepsAll_singleton_iff.mp (steady i hi)
    · rw [if_neg hcount] at steady
      have hfirst : ∀ i ∈ recipients n, (S.channels i).Keeps zone (env.sizes i) S.last.tv.sec :=
        fun i hi => ((Channel.keepsAll_cons_iff put).mp (steady i hi)).1
      rw [if_neg hcount, if_neg hcount, writeChannels_l_of_keeps .lastLog hfirst,
        writeChannels_l_silent, Option.bind_some, Option.bind_some, writeChannels_l_silent]
      refine writeChannels_l_of_keeps (.ptr p) fun i hi => ?_
      rw [deref, pointer, tv_handed, channels_handed S .lastLog hi]
      exact Channel.keepsAll_singleton_iff.mp ((Channel.keepsAll_cons_iff put).mp (steady i hi)).2

/-! ## Deliveries that never return -/

/-- Every open fails, and the clock stands still. -/
def stuck (sizes : Option (Fin n) → Nat → Nat) (second : Int) : Env n where
  opens := fun _ _ => false
  sizes := sizes
  now := fun _ => ⟨second, 0⟩
  mono := fun _ _ _ => Int.le_refl second

/-- A message of the time `second` is not merely counted, and the addresses
of the messages still to come are free. -/
structure Poised (second : Int) (S : Logger n (Channel Silent)) : Prop where
  allocated : S.lastLog < S.next
  late : 500 < timevalDiff S.last.tv ⟨second, 0⟩

/-- Some `FileChannel` has no open stream, and its check is due at `second`. -/
def AnyShut (second : Int) (S : Logger n (Channel Silent)) : Prop :=
  ∃ i ∈ recipients n, (S.channels i).Shut second

/-- `Logger::write` does not return for the errors that `changeFile` logs. -/
def Stuck (second : Int)
    (nested : Logger n (Channel Silent) → Nat → Option (Logger n (Channel Silent))) : Prop :=
  ∀ S p, Poised second S → AnyShut second S → (S.heap p).tv = ⟨second, 0⟩ → nested S p = none

/-- Whichever channel changes its file while messages of these times are
written, some check is due at `second`. -/
def Due (second : Int) (S : Logger n (Channel Silent)) (seconds : List Int) : Prop :=
  AnyShut second S ∨
    (∀ t ∈ seconds, 60 < second - t) ∧
      ∀ i chn, S.channels i = .file chn → 60 < second - chn.lastCheckTime

section

variable {sizes : Option (Fin n) → Nat → Nat} {second : Int} {S : Logger n (Channel Silent)}

theorem Poised.setChannel (poised : Poised second S) (i : Option (Fin n))
    (chn : Channel Silent) : Poised second (S.setChannel i chn) :=
  ⟨poised.allocated, poised.late⟩

theorem Poised.setRepeat (poised : Poised second S) (p : Nat) (count : Int) :
    Poised second (S.setRepeat p count) where
  allocated := poised.allocated
  late := by
    rw [last, tv_setRepeat]
    exact poised.late

/-- Handing out the last message once more resets its count only. -/
theorem Poised.flush {put : Channel Silent → LogContext → Channel Silent}
    (poised : Poised second S) : Poised second (handed put S .lastLog) where
  allocated := poised.allocated
  late := by
    rw [last_handed]
    exact poised.late

theorem Poised.alloc (poised : Poised second S) (ctx : LogContext) :
    Poised second (S.alloc ctx) where
  allocated := Nat.lt_succ_of_lt poised.allocated
  late := by
    rw [last_alloc_of_ne S poised.allocated.ne]
    exact poised.late

theorem Due.setRepeat {seconds : List Int} (due : Due second S seconds) (p : Nat) (count : Int) :
    Due second (S.setRepeat p count) seconds :=
  due

/-- The channel that could not open its file is shut, or another one was and still is. -/
theorem Due.setFile {seconds : List Int} (due : Due second S seconds) {i : Option (Fin n)}
    (hi : i ∈ recipients n)
    {chn chn' : FileChannel} (hchn : S.channels i = .file chn) (hclosed : chn'.isOpen = false)
    (hcheck : chn'.lastCheckTime = chn.lastCheckTime) :
    AnyShut second (S.setChannel i (.file chn')) := by
  have hself : 60 < second - chn.lastCheckTime → AnyShut second (S.setChannel i (.file chn')) :=
    fun hdue => ⟨i, hi, chn', channels_setChannel_self S i _, hclosed, hcheck ▸ hdue⟩
  rcases due with ⟨j, hj, hshut⟩ | ⟨-, hall⟩
  · by_cases hji : j = i
    · subst hji
      obtain ⟨file, hfile, -, hdue⟩ := hshut
      obtain rfl := Channel.file.inj (hchn.symm.trans hfile)
      exact hself hdue
    · exact ⟨j, hj, (channels_setChannel_of_ne S _ hji).symm ▸ hshut⟩
  · exact hself (hall i chn hchn)

variable (zone put sizes) in
/-- A message for which the channels keep their files leaves a check due. -/
theorem Due.accept {seconds : List Int} (due : Due second S seconds) {ctx : LogContext}
    (hmem : ctx.tv.sec ∈ seconds) {T : Logger n (Channel Silent)}
    (hchannels : ∀ i, T.channels i = S.channels i ∨
      T.channels i = (S.channels i).accept put ctx ∧
        (S.channels i).Keeps zone (sizes i) ctx.tv.sec) : Due second T seconds := by
  rcases due with ⟨i, hi, hshut⟩ | ⟨htimes, hall⟩
  · refine Or.inl ⟨i, hi, ?_⟩
    rcases hchannels i with hsame | ⟨haccept, hkeeps⟩
    · rwa [hsame]
    · rw [haccept]
      exact hshut.accept hkeeps
  · refine Or.inr ⟨htimes, fun i chn hchn => ?_⟩
    rcases hchannels i with hsame | ⟨haccept, -⟩
    · exact hall i chn (hsame.symm.trans hchn)
    · rw [haccept] at hchn
      cases hold : S.channels i with
      | silent old =>
          rw [hold] at hchn
          cases hchn
      | file old =>
          rw [hold] at hchn
          obtain rfl := Channel.file.inj hchn
          rcases old.lastCheckTime_wrote ctx with hcheck | hcheck
          · rw [hcheck]
            exact hall i old hold
          · rw [hcheck]
            exact htimes _ hmem

/-- The error of `changeFile` finds a check still due. -/
theorem changeFile_stuck {seconds : List Int} (poised : Poised second S)
    (due : Due second S seconds) (hstuck : Stuck second nested) {i : Option (Fin n)}
    (hi : i ∈ recipients n) {chn chn' : FileChannel} (hchn : S.channels i = .file chn)
    (hcheck : chn'.lastCheckTime = chn.lastCheckTime) (t : Int) :
    changeFile zone (stuck sizes second) nested S i chn' t = none := by
  rw [changeFile]
  refine hstuck _ _ ((poised.setChannel i _).alloc _) ?_ ?_
  · exact due.setFile hi hchn rfl hcheck
  · rw [heap_alloc_self]
    rfl

/-- A channel that changes its file logs its error, and does not return. -/
theorem deliver_stuck {seconds : List Int} (poised : Poised second S)
    (due : Due second S seconds) (hstuck : Stuck second nested) {i : Option (Fin n)}
    (hi : i ∈ recipients n) {ref : Ref}
    (hkeeps : ¬ (S.channels i).Keeps zone (sizes i) (S.deref ref).tv.sec) :
    deliver zone (stuck sizes second) nested put S i ref = none := by
  cases hchn : S.channels i with
  | silent chn =>
      rw [hchn] at hkeeps
      exact absurd trivial hkeeps
  | file chn =>
      rw [hchn] at hkeeps
      rw [deliver, hchn]
      dsimp only
      rw [writeFile]
      by_cases hday : getDay zone (S.deref ref).tv.sec = chn.lastDay
      · have hsize : ¬ (60 < (S.deref ref).tv.sec - chn.lastCheckTime →
            chn.size (sizes i chn.queries) ≤ chn.limit) := fun h => hkeeps ⟨hday, h⟩
        obtain ⟨hcheck, hlarge⟩ := Classical.not_imp.mp hsize
        have hlarge : chn.limit < chn.size ((stuck sizes second).sizes i chn.queries) :=
          Nat.not_le.mp hlarge
        rw [if_neg (not_not.mpr hday), checkSize, if_pos hcheck]
        dsimp only
        rw [if_pos hlarge,
          changeFile_stuck poised due hstuck hi hchn (by rfl)]
        rfl
      · rw [if_pos hday, changeFile_stuck poised due hstuck hi hchn (by rfl)]
        rfl

/-- One channel that changes its file keeps the others from returning. -/
theorem foldlM_stuck {seconds : List Int} (poised : Poised second S)
    (due : Due second S seconds) (hstuck : Stuck second nested) (l : List (Option (Fin n)))
    (hl : l.Nodup) (hsub : l ⊆ recipients n) {ref : Ref}
    (hmem : (S.deref ref).tv.sec ∈ seconds)
    (hkeeps : ∃ i ∈ l, ¬ (S.channels i).Keeps zone (sizes i) (S.deref ref).tv.sec) :
    l.foldlM (fun S i => deliver zone (stuck sizes second) nested put S i ref) S = none := by
  induction l generalizing S with
  | nil => simp at hkeeps
  | cons i l ih =>
      obtain ⟨hi, hl⟩ := List.nodup_cons.mp hl
      obtain ⟨hsubi, hsubl⟩ := List.cons_subset.mp hsub
      rw [List.foldlM_cons]
      by_cases hfirst : (S.channels i).Keeps zone (sizes i) (S.deref ref).tv.sec
      · have hdeliver : deliver zone (stuck sizes second) nested put S i ref =
            silent (Channel.accept put) S i ref := deliver_of_keeps hfirst
        rw [hdeliver, silent, Option.bind_eq_bind, Option.bind_some]
        refine ih (poised.setChannel i _) (due.accept zone put sizes hmem ?_) hl hsubl hmem ?_
        · intro j
          by_cases hj : j = i
          · subst hj
            exact Or.inr ⟨channels_setChannel_self S j _, hfirst⟩
          · exact Or.inl (channels_setChannel_of_ne S _ hj)
        · obtain ⟨j, hj, hchange⟩ := hkeeps
          have hne : j ≠ i := by
            rintro rfl
            exact hchange hfirst
          refine ⟨j, (List.mem_cons.mp hj).resolve_left hne, ?_⟩
          exact (channels_setChannel_of_ne S _ hne).symm ▸ hchange
      · rw [deliver_stuck poised due hstuck hsubi hfirst]
        rfl

theorem writeChannels_l_stuck {seconds : List Int} (poised : Poised second S)
    (due : Due second S seconds) (hstuck : Stuck second nested) (ref : Ref)
    (hmem : (S.deref ref).tv.sec ∈ seconds)
    (hkeeps : ∃ i ∈ recipients n, ¬ (S.channels i).Keeps zone (sizes i) (S.deref ref).tv.sec) :
    writeChannels_l (deliver zone (stuck sizes second) nested put) S ref = none := by
  have hpoised : Poised second { S with written := S.written ++ [S.deref ref] } :=
    ⟨poised.allocated, poised.late⟩
  rw [writeChannels_l, foldlM_stuck hpoised due hstuck (recipients n) (nodup_recipients n)
    (List.Subset.refl _) hmem hkeeps]
  rfl

/-- When a file is changed for a message, nothing is returned. -/
theorem writeChannels_stuck {p : Nat} (poised : Poised second S)
    (due : Due second S [S.last.tv.sec, (S.heap p).tv.sec]) (hstuck : Stuck second nested)
    (hsteady : ¬ Steady zone sizes S p) :
    writeChannels (deliver zone (stuck sizes second) nested put) S p = none := by
  rw [Steady, delivered] at hsteady
  push Not at hsteady
  obtain ⟨i, hi, hchange⟩ := hsteady
  by_cases hrep : (S.heap p).Repeats S.last
  · rw [if_pos hrep] at hchange
    rw [writeChannels_repeated hrep]
    by_cases hlate : 500 < timevalDiff S.last.tv (S.heap p).tv
    · rw [if_pos hlate] at hchange ⊢
      refine writeChannels_l_stuck ((poised.setRepeat _ _).setRepeat p _)
        ((due.setRepeat _ _).setRepeat p _) hstuck (.ptr p) ?_ ⟨i, hi, ?_⟩
      · rw [deref, pointer, tv_setRepeat, tv_setRepeat]
        simp
      · rw [deref, pointer, tv_setRepeat, tv_setRepeat]
        exact fun hkeeps => hchange (Channel.keepsAll_singleton_iff.mpr hkeeps)
    · rw [if_neg hlate] at hchange
      exact absurd (Channel.keepsAll_nil _) hchange
  · rw [if_neg hrep] at hchange
    rw [writeChannels_different hrep]
    by_cases hcount : S.last.repeat_ = 0
    · rw [if_pos hcount] at hchange ⊢
      exact writeChannels_l_stuck poised due hstuck (.ptr p) (by simp [deref, pointer])
        ⟨i, hi, fun hkeeps => hchange (Channel.keepsAll_singleton_iff.mpr hkeeps)⟩
    · rw [if_neg hcount] at hchange ⊢
      by_cases hlast : ∃ j ∈ recipients n, ¬ (S.channels j).Keeps zone (sizes j) S.last.tv.sec
      · rw [writeChannels_l_stuck poised due hstuck .lastLog (by simp [deref, pointer, last]) hlast]
        rfl
      · push Not at hlast
        have hflush : writeChannels_l (deliver zone (stuck sizes second) nested put) S .lastLog =
            some (handed (Channel.accept put) S .lastLog) := writeChannels_l_of_keeps .lastLog hlast
        have hchannels : ∀ j, (handed (Channel.accept put) S .lastLog).channels j = S.channels j ∨
            (handed (Channel.accept put) S .lastLog).channels j =
                (S.channels j).accept put S.last ∧
              (S.channels j).Keeps zone (sizes j) S.last.tv.sec := by
          intro j
          by_cases hj : j ∈ recipients n
          · exact Or.inr ⟨channels_handed S .lastLog hj, hlast j hj⟩
          · exact Or.inl (if_neg hj)
        rw [hflush]
        refine writeChannels_l_stuck poised.flush
          (due.accept zone put sizes (by simp) hchannels) hstuck (.ptr p) ?_ ⟨i, hi, ?_⟩
        · rw [deref, pointer, tv_handed]
          simp
        · rw [deref, pointer, tv_handed, channels_handed S .lastLog hi]
          exact fun hkeeps => hchange ((Channel.keepsAll_cons_iff put).mpr
            ⟨hlast i hi, Channel.keepsAll_singleton_iff.mpr hkeeps⟩)

/-- A shut channel changes its file for the error of another. -/
theorem not_steady_of_shut {p : Nat} (poised : Poised second S) (hshut : AnyShut second S)
    (htv : (S.heap p).tv = ⟨second, 0⟩) : ¬ Steady zone sizes S p := by
  obtain ⟨i, hi, hshut⟩ := hshut
  have hdelivered : S.heap p ∈ delivered S p := by
    rw [delivered, htv, if_pos poised.late]
    split
    · exact List.mem_singleton_self _
    · split <;> simp
  have hmem : second ∈ (delivered S p).map fun ctx => ctx.tv.sec :=
    List.mem_map.mpr ⟨S.heap p, hdelivered, by rw [htv]⟩
  exact fun steady => hshut.not_keepsAll hmem (steady i hi)

/-- With files that cannot be opened a message that changes one does not return. -/
theorem write_stuck {p : Nat} (poised : Poised second S)
    (due : Due second S [S.last.tv.sec, (S.heap p).tv.sec]) (hsteady : ¬ Steady zone sizes S p)
    (k : Nat) : write zone (stuck sizes second) put k S p = none := by
  induction k generalizing S p with
  | zero => rfl
  | succ k ih =>
      refine writeChannels_stuck poised due ?_ hsteady
      intro T q poised hshut htv
      exact ih poised (Or.inl hshut) (not_steady_of_shut poised hshut htv)

end

end Logger

end FFZKit.Util

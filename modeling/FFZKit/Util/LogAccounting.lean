import FFZKit.Util.Logger
import Mathlib.Algebra.BigOperators.Group.List.Basic
import Mathlib.Algebra.Order.Group.Int
import Mathlib.Data.List.Infix
import Mathlib.Data.List.Nodup

/-!
# No message is lost by the suppression of repeated ones

Each message is given to the channels, or counted on the last message until
the count is given to them. The channels are taken to log nothing themselves.
The count is an `int`, so that it wraps when one message is repeated `2 ^ 31`
times with nothing else in between.
-/

namespace FFZKit.Util

namespace LogContext

theorem Repeats.symm {a b : LogContext} (h : a.Repeats b) : b.Repeats a :=
  ⟨h.1.symm, h.2.1.symm, h.2.2.1.symm, h.2.2.2.symm⟩

theorem Repeats.trans {a b c : LogContext} (h : a.Repeats b) (h' : b.Repeats c) : a.Repeats c :=
  ⟨h.1.trans h'.1, h.2.1.trans h'.2.1, h.2.2.1.trans h'.2.2.1, h.2.2.2.trans h'.2.2.2⟩

theorem repeats_refl (a : LogContext) : a.Repeats a :=
  ⟨rfl, rfl, rfl, rfl⟩

/-- Two messages that differ in nothing but the count. -/
def SameText (a b : LogContext) : Prop :=
  a = { b with repeat_ := a.repeat_ }

theorem sameText_refl (a : LogContext) : a.SameText a := rfl

theorem SameText.trans {a b c : LogContext} (h : a.SameText b) (h' : b.SameText c) :
    a.SameText c := by
  rw [SameText, h, h']

theorem sameText_repeat (a : LogContext) (count : Int) :
    SameText { a with repeat_ := count } a := rfl

theorem SameText.repeats_iff {a b c d : LogContext} (h : a.SameText b) (h' : c.SameText d) :
    a.Repeats c ↔ b.Repeats d := by
  rw [h, h']
  exact Iff.rfl

/-- The number of messages that the line printed for `ctx` stands for. -/
def reported (ctx : LogContext) : Int :=
  ctx.repeatNote.getD 1

theorem reported_eq_max (ctx : LogContext) : ctx.reported = max 1 ctx.repeat_ := by
  rw [reported, repeatNote]
  split
  · rw [Option.getD_some]
    omega
  · rw [Option.getD_none]
    omega

end LogContext

/-- A `ConsoleChannel` prints one line for every message of its level or above. -/
theorem ConsoleChannel.out_foldl_write (printTime : Timeval → String) (pid : Nat) (name : String)
    (chn : ConsoleChannel) (ctxs : List LogContext) :
    (ctxs.foldl (ConsoleChannel.write printTime pid name) chn).out =
      chn.out ++ (ctxs.filter fun ctx => chn.level.toNat ≤ ctx.level.toNat).map
        fun ctx => format printTime pid name ctx true := by
  induction ctxs generalizing chn with
  | nil => simp
  | cons ctx ctxs ih =>
      rw [List.foldl_cons, ih]
      by_cases hlevel : ctx.level.toNat < chn.level.toNat
      · simp [ConsoleChannel.write, hlevel]
      · have hle : chn.level.toNat ≤ ctx.level.toNat := by omega
        simp [ConsoleChannel.write, hlevel, hle]

namespace Logger

variable {n : Nat} {Channel : Type*}

theorem nodup_recipients (n : Nat) : (recipients n).Nodup := by
  rw [recipients]
  split
  · exact List.nodup_singleton none
  · exact (List.nodup_finRange n).map fun _ _ => Option.some.inj

/-- A channel that logs nothing: it changes only its own state. -/
def silent (put : Channel → LogContext → Channel) (S : Logger n Channel) (i : Option (Fin n))
    (ref : Ref) : Option (Logger n Channel) :=
  some { S with channels := Function.update S.channels i (put (S.channels i) (S.deref ref)) }

variable {put : Channel → LogContext → Channel}

theorem foldlM_silent (l : List (Option (Fin n))) (hl : l.Nodup) (S : Logger n Channel)
    (ref : Ref) :
    l.foldlM (fun S i => silent put S i ref) S =
      some { S with channels := fun i =>
        if i ∈ l then put (S.channels i) (S.deref ref) else S.channels i } := by
  induction l generalizing S with
  | nil => simp
  | cons i l ih =>
      obtain ⟨hi, hl⟩ := List.nodup_cons.mp hl
      rw [List.foldlM_cons, silent, Option.bind_eq_bind, Option.bind_some, ih hl]
      congr 2
      funext j
      by_cases hj : j = i
      · subst hj
        simp [hi]
      · simp [hj, deref, pointer]

/-- The logger after the channels were given a message. -/
def handed (put : Channel → LogContext → Channel) (S : Logger n Channel) (ref : Ref) :
    Logger n Channel where
  name := S.name
  heap := Function.update S.heap (S.pointer ref) { S.deref ref with repeat_ := 0 }
  next := S.next
  lastLog := S.pointer ref
  channels := fun i =>
    if i ∈ recipients n then put (S.channels i) (S.deref ref) else S.channels i
  written := S.written ++ [S.deref ref]

theorem writeChannels_l_silent (S : Logger n Channel) (ref : Ref) :
    writeChannels_l (silent put) S ref = some (handed put S ref) := by
  rw [writeChannels_l, foldlM_silent (recipients n) (nodup_recipients n)]
  cases ref <;> rfl

/-- The four ways in which `writeChannels` can go. -/
theorem writeChannels_silent (S : Logger n Channel) (p : Nat) :
    writeChannels (silent put) S p = some
      (if (S.heap p).Repeats S.last then
        if 500 < timevalDiff S.last.tv (S.heap p).tv then
          handed put ((S.setRepeat S.lastLog (increment S.last.repeat_)).setRepeat p
            (increment S.last.repeat_)) (.ptr p)
        else S.setRepeat S.lastLog (increment S.last.repeat_)
      else handed put (if S.last.repeat_ = 0 then S else handed put S .lastLog) (.ptr p)) := by
  by_cases hrep : (S.heap p).Repeats S.last
  · rw [writeChannels_repeated hrep, if_pos hrep, writeChannels_l_silent, apply_ite some]
  · rw [writeChannels_different hrep, if_neg hrep, writeChannels_l_silent, ← apply_ite some,
      Option.bind_some, writeChannels_l_silent]

/-- A different message goes to the channels at once when nothing is counted. -/
theorem writeChannels_of_not_repeats {S : Logger n Channel} {p : Nat}
    (hrep : ¬ (S.heap p).Repeats S.last) (hcount : S.last.repeat_ = 0) :
    writeChannels (silent put) S p = some (handed put S (.ptr p)) := by
  rw [writeChannels_silent, if_neg hrep, if_pos hcount]

@[simp] theorem last_handed (S : Logger n Channel) (ref : Ref) :
    (handed put S ref).last = { S.deref ref with repeat_ := 0 } := by
  simp [last, handed]

theorem sameText_setRepeat (S : Logger n Channel) (p q : Nat) (count : Int) :
    ((S.setRepeat p count).heap q).SameText (S.heap q) := by
  by_cases hq : q = p
  · subst hq
    rw [heap_setRepeat_self]
    exact LogContext.sameText_repeat _ _
  · rw [heap_setRepeat_of_ne S count hq]
    exact LogContext.sameText_refl _

/-- A repetition that comes within 500 ms is counted. -/
theorem writeChannels_of_repeats {S : Logger n Channel} {p : Nat}
    (hrep : (S.heap p).Repeats S.last) (hsoon : timevalDiff S.last.tv (S.heap p).tv ≤ 500) :
    writeChannels (silent put) S p =
      some (S.setRepeat S.lastLog (increment S.last.repeat_)) := by
  rw [writeChannels_silent, if_pos hrep, if_neg (not_lt.mpr hsoon)]

theorem channels_handed (S : Logger n Channel) (ref : Ref) {i : Option (Fin n)}
    (hi : i ∈ recipients n) : (handed put S ref).channels i = put (S.channels i) (S.deref ref) :=
  if_pos hi

/-- Handing a message to the channels changes the heap as resetting its count does. -/
theorem heap_handed (S : Logger n Channel) (ref : Ref) :
    (handed put S ref).heap = (S.setRepeat (S.pointer ref) 0).heap := rfl

/-! ## What the messages `done` have changed -/

/-- The logger `S` came from `S₀` by messages among `done`. -/
structure Since (S₀ : Logger n Channel) (done : List Nat) (S : Logger n Channel) : Prop where
  text : ∀ q, (S.heap q).SameText (S₀.heap q)
  untouched : ∀ q, q ∉ S₀.lastLog :: done → S.heap q = S₀.heap q
  lastLog : S.lastLog ∈ S₀.lastLog :: done
  next : S.next = S₀.next

theorem since_refl (S : Logger n Channel) : Since S [] S where
  text := fun _ => LogContext.sameText_refl _
  untouched := fun _ _ => rfl
  lastLog := List.mem_cons_self
  next := rfl

namespace Since

variable {S₀ S T : Logger n Channel} {done : List Nat} {p : Nat}

theorem mono (since : Since S₀ done S) (p : Nat) : Since S₀ (done ++ [p]) S where
  text := since.text
  untouched := fun q hq => since.untouched q fun hmem => hq (by grind)
  lastLog := by
    have := since.lastLog
    grind
  next := since.next

theorem setRepeat (since : Since S₀ done S) (hp : p ∈ S₀.lastLog :: done) (count : Int) :
    Since S₀ done (S.setRepeat p count) where
  text := fun q => (sameText_setRepeat S p q count).trans (since.text q)
  untouched := by
    intro q hq
    have hne : q ≠ p := by
      rintro rfl
      exact hq hp
    rw [heap_setRepeat_of_ne S count hne]
    exact since.untouched q hq
  lastLog := since.lastLog
  next := since.next

theorem handed (since : Since S₀ done S) (ref : Ref)
    (hp : S.pointer ref ∈ S₀.lastLog :: done) : Since S₀ done (handed put S ref) where
  text := (since.setRepeat hp 0).text
  untouched := (since.setRepeat hp 0).untouched
  lastLog := hp
  next := since.next

theorem writeChannels (since : Since S₀ done S)
    (h : writeChannels (silent put) S p = some T) : Since S₀ (done ++ [p]) T := by
  have hlast : S.lastLog ∈ S₀.lastLog :: (done ++ [p]) := (since.mono p).lastLog
  have hp : p ∈ S₀.lastLog :: (done ++ [p]) := by simp
  rw [writeChannels_silent] at h
  obtain rfl := Option.some.inj h
  split
  · have hcounted := (since.mono p).setRepeat hlast (increment S.last.repeat_)
    split
    · exact (hcounted.setRepeat hp _).handed (.ptr p) hp
    · exact hcounted
  · split
    · exact (since.mono p).handed (.ptr p) hp
    · exact ((since.mono p).handed .lastLog hlast).handed (.ptr p) hp

end Since

/-- Each channel has been given what `writeChannels_l` was called with. -/
def Given (put : Channel → LogContext → Channel) (chns : Option (Fin n) → Channel)
    (S : Logger n Channel) : Prop :=
  ∀ i ∈ recipients n, S.channels i = S.written.foldl put (chns i)

theorem Given.setRepeat {chns : Option (Fin n) → Channel} {S : Logger n Channel}
    (given : Given put chns S) (p : Nat) (count : Int) : Given put chns (S.setRepeat p count) :=
  given

theorem Given.alloc {chns : Option (Fin n) → Channel} {S : Logger n Channel}
    (given : Given put chns S) (ctx : LogContext) : Given put chns (S.alloc ctx) :=
  given

theorem Given.handed {chns : Option (Fin n) → Channel} {S : Logger n Channel}
    (given : Given put chns S) (ref : Ref) : Given put chns (handed put S ref) := by
  intro i hi
  simp [Logger.handed, hi, given i hi]

theorem Given.writeChannels {chns : Option (Fin n) → Channel} {S T : Logger n Channel} {p : Nat}
    (given : Given put chns S) (h : writeChannels (silent put) S p = some T) :
    Given put chns T := by
  rw [writeChannels_silent] at h
  obtain rfl := Option.some.inj h
  split
  · split
    · exact ((given.setRepeat _ _).setRepeat _ _).handed _
    · exact given.setRepeat _ _
  · split
    · exact given.handed _
    · exact (given.handed _).handed _

/-! ## The count -/

/-- The messages given to the channels and those still counted. -/
def accounted (S : Logger n Channel) : Int :=
  (S.written.map fun ctx => max 1 ctx.repeat_).sum + S.last.repeat_

theorem accounted_handed (S : Logger n Channel) (ref : Ref) :
    (handed put S ref).accounted = S.accounted - S.last.repeat_ + max 1 (S.deref ref).repeat_ := by
  rw [accounted, accounted, last_handed]
  simp [handed]

theorem accounted_setRepeat_lastLog (S : Logger n Channel) (count : Int) :
    (S.setRepeat S.lastLog count).accounted = S.accounted - S.last.repeat_ + count := by
  rw [accounted, accounted, last_setRepeat_lastLog]
  simp [setRepeat]

theorem accounted_setRepeat_of_ne (S : Logger n Channel) {p : Nat} {count : Int}
    (hp : S.lastLog ≠ p) : (S.setRepeat p count).accounted = S.accounted := by
  rw [accounted, accounted, last_setRepeat_of_ne S hp]
  rfl

theorem accounted_alloc_of_ne (S : Logger n Channel) {ctx : LogContext}
    (hlast : S.lastLog ≠ S.next) : (S.alloc ctx).accounted = S.accounted := by
  rw [accounted, accounted, last_alloc_of_ne S hlast]
  rfl

theorem increment_eq {count : Int} (hnonneg : 0 ≤ count) (hroom : count < 2 ^ 31 - 1) :
    increment count = count + 1 := by
  rw [increment, Int.bmod_def]
  split <;> omega

/-- A message adds one to the account, unless the count wraps. -/
theorem accounted_writeChannels {S T : Logger n Channel} {p : Nat}
    (h : writeChannels (silent put) S p = some T) (hp : p ≠ S.lastLog)
    (hbuilt : (S.heap p).repeat_ = 0) (hnonneg : 0 ≤ S.last.repeat_)
    (hroom : (S.heap p).Repeats S.last → S.last.repeat_ < 2 ^ 31 - 1) :
    T.accounted = S.accounted + 1 := by
  rw [writeChannels_silent] at h
  obtain rfl := Option.some.inj h
  split
  next hrep =>
    rw [increment_eq hnonneg (hroom hrep)]
    split
    · -- the count moves to the new message, and the channels see it there
      have hne : (S.setRepeat S.lastLog (S.last.repeat_ + 1)).lastLog ≠ p := hp.symm
      rw [accounted_handed, deref, pointer, heap_setRepeat_self, last_setRepeat_of_ne _ hne,
        accounted_setRepeat_of_ne _ hne, accounted_setRepeat_lastLog, last_setRepeat_lastLog]
      dsimp only
      omega
    · rw [accounted_setRepeat_lastLog]
      omega
  next =>
    split
    next hzero =>
      rw [accounted_handed, deref, pointer, hbuilt, hzero]
      omega
    next hcount =>
      -- the last message is given once more with its count, and then the new one
      rw [accounted_handed, accounted_handed, last_handed, deref, deref, pointer, pointer,
        heap_handed, pointer, heap_setRepeat_of_ne S 0 hp, hbuilt, ← last]
      dsimp only
      omega

/-! ## Runs -/

/-- A new logger and built messages for it. The message that `_last_log`
points to at first was never logged and has no file name. -/
structure Fresh (S : Logger n Channel) (ps : List Nat) : Prop where
  written : S.written = []
  count : S.last.repeat_ = 0
  noFile : S.last.file = ""
  nodup : (S.lastLog :: ps).Nodup
  allocated : ∀ p ∈ S.lastLog :: ps, p < S.next
  built : ∀ p ∈ ps, (S.heap p).repeat_ = 0 ∧ (S.heap p).file ≠ ""

/-- At most `2 ^ 31` consecutive messages repeat each other. -/
def Varied (S : Logger n Channel) (ps : List Nat) : Prop :=
  ∀ block, block <:+: ps → (∀ p ∈ block, ∀ q ∈ block, (S.heap p).Repeats (S.heap q)) →
    block.length ≤ 2 ^ 31

/-- The count is below the number of messages at the end of `done` that
repeat the last one. -/
def Streak (S₀ : Logger n Channel) (done : List Nat) (S : Logger n Channel) : Prop :=
  0 ≤ S.last.repeat_ ∧ ∃ block, block <:+ done ∧
    (∀ q ∈ block, (S₀.heap q).Repeats (S₀.heap S.lastLog)) ∧
    (S.last.repeat_ < block.length ∨ done = [] ∧ S.lastLog = S₀.lastLog ∧ S.last.repeat_ = 0)

/-- The logger `S` came from `S₀` by the messages `done`. -/
structure Tallied (put : Channel → LogContext → Channel) (S₀ : Logger n Channel)
    (done : List Nat) (S : Logger n Channel) : Prop extends Since S₀ done S where
  given : Given put S₀.channels S
  total : S.accounted = done.length
  streak : Streak S₀ done S

variable (put) in
theorem tallied_init {S : Logger n Channel} {ps : List Nat} (fresh : Fresh S ps) :
    Tallied put S [] S where
  toSince := since_refl S
  given := fun _ _ => by rw [fresh.written, List.foldl_nil]
  total := by simp [accounted, fresh.written, fresh.count]
  streak := ⟨fresh.count.ge, [], List.suffix_rfl, by simp, Or.inr ⟨rfl, rfl, fresh.count⟩⟩

/-- A message that was just given to the channels starts a streak. -/
theorem streak_handed {S₀ S : Logger n Channel} {done : List Nat} {p : Nat} :
    Streak S₀ (done ++ [p]) (handed put S (.ptr p)) := by
  refine ⟨by simp, [p], List.suffix_append done [p], ?_, Or.inl (by simp)⟩
  intro q hq
  obtain rfl := List.mem_singleton.mp hq
  exact LogContext.repeats_refl _

namespace Tallied

variable {S₀ S T : Logger n Channel} {done rest : List Nat} {p : Nat}

/-- A message that repeats the last one extends the streak. -/
theorem alike (tallied : Tallied put S₀ done S) (hnoFile : S₀.last.file = "")
    (hfile : (S₀.heap p).file ≠ "") (hrep : (S.heap p).Repeats S.last) :
    ∃ block, block <:+ done ∧ S.last.repeat_ < block.length ∧
      ∀ q ∈ block ++ [p], (S₀.heap q).Repeats (S₀.heap S.lastLog) := by
  have hp : (S₀.heap p).Repeats (S₀.heap S.lastLog) :=
    ((tallied.text p).repeats_iff (tallied.text S.lastLog)).mp hrep
  obtain ⟨-, block, hsuffix, hblock, hlt | ⟨-, hlast, -⟩⟩ := tallied.streak
  · refine ⟨block, hsuffix, hlt, ?_⟩
    simp only [List.mem_append, List.mem_singleton]
    rintro q (hq | rfl)
    · exact hblock q hq
    · exact hp
  · rw [hlast] at hp
    exact absurd (hp.2.1.trans hnoFile) hfile

/-- The count has not reached the largest `int` when it is incremented. -/
theorem room (tallied : Tallied put S₀ done S) (fresh : Fresh S₀ (done ++ p :: rest))
    (varied : Varied S₀ (done ++ p :: rest)) (hrep : (S.heap p).Repeats S.last) :
    S.last.repeat_ < 2 ^ 31 - 1 := by
  obtain ⟨block, ⟨front, rfl⟩, hlt, hblock⟩ :=
    tallied.alike fresh.noFile (fresh.built p (by simp)).2 hrep
  have hlength := varied (block ++ [p]) ⟨front, rest, by simp⟩ fun q hq q' hq' =>
    (hblock q hq).trans (hblock q' hq').symm
  rw [List.length_append, List.length_singleton] at hlength
  omega

/-- After a message either it is the last one, or it was counted on the last one. -/
theorem streak_step (tallied : Tallied put S₀ done S) (fresh : Fresh S₀ (done ++ p :: rest))
    (varied : Varied S₀ (done ++ p :: rest)) (h : Logger.writeChannels (silent put) S p = some T) :
    Streak S₀ (done ++ [p]) T := by
  rw [writeChannels_silent] at h
  obtain rfl := Option.some.inj h
  split
  next hrep =>
    have hroom := tallied.room fresh varied hrep
    obtain ⟨block, ⟨front, rfl⟩, hlt, hblock⟩ :=
      tallied.alike fresh.noFile (fresh.built p (by simp)).2 hrep
    have hnonneg := tallied.streak.1
    rw [increment_eq hnonneg hroom]
    split
    · exact streak_handed
    · refine ⟨?_, block ++ [p], ⟨front, by simp⟩, hblock, Or.inl ?_⟩
      · rw [last_setRepeat_lastLog]
        dsimp only
        omega
      · rw [last_setRepeat_lastLog, List.length_append, List.length_singleton]
        dsimp only
        omega
  next =>
    exact streak_handed

theorem step (tallied : Tallied put S₀ done S) (fresh : Fresh S₀ (done ++ p :: rest))
    (varied : Varied S₀ (done ++ p :: rest)) :
    ∃ T, Logger.writeChannels (silent put) S p = some T ∧ Tallied put S₀ (done ++ [p]) T := by
  obtain ⟨T, hT⟩ : ∃ T, Logger.writeChannels (silent put) S p = some T :=
    ⟨_, writeChannels_silent S p⟩
  have hnew : p ∉ S₀.lastLog :: done := by
    have hnodup := fresh.nodup
    rw [← List.cons_append] at hnodup
    exact fun hmem => List.disjoint_of_nodup_append hnodup hmem List.mem_cons_self
  have hbuilt : (S.heap p).repeat_ = 0 := by
    rw [tallied.untouched p hnew]
    exact (fresh.built p (by simp)).1
  have hne : p ≠ S.lastLog := by
    rintro rfl
    exact hnew tallied.lastLog
  refine ⟨T, hT, tallied.toSince.writeChannels hT, tallied.given.writeChannels hT, ?_,
    tallied.streak_step fresh varied hT⟩
  rw [accounted_writeChannels hT hne hbuilt tallied.streak.1 (tallied.room fresh varied),
    tallied.total, List.length_append, List.length_singleton]
  omega

theorem run (tallied : Tallied put S₀ done S) (fresh : Fresh S₀ (done ++ rest))
    (varied : Varied S₀ (done ++ rest)) :
    ∃ T, rest.foldlM (Logger.writeChannels (silent put)) S = some T ∧
      Tallied put S₀ (done ++ rest) T := by
  induction rest generalizing done S with
  | nil =>
      rw [List.append_nil]
      exact ⟨S, rfl, tallied⟩
  | cons p rest ih =>
      obtain ⟨U, hU, htallied⟩ := tallied.step fresh varied
      rw [List.append_cons] at fresh varied ⊢
      obtain ⟨T, hT, htallied⟩ := ih htallied fresh varied
      refine ⟨T, ?_, htallied⟩
      rw [List.foldlM_cons, hU]
      exact hT

end Tallied

/-- A message that does not repeat the last one leaves nothing counted. -/
theorem count_of_not_repeats {S T : Logger n Channel} {p : Nat}
    (h : writeChannels (silent put) S p = some T) (hrep : ¬ (S.heap p).Repeats S.last) :
    T.last.repeat_ = 0 := by
  rw [writeChannels_silent, if_neg hrep] at h
  obtain rfl := Option.some.inj h
  rw [last_handed]

/-- The message of `~Logger` brings what is still counted to the channels. -/
theorem Tallied.destroy {S₀ S : Logger n Channel} {done : List Nat}
    (tallied : Tallied put S₀ done S) (fresh : Fresh S₀ done) {tv : Timeval} {threadName : String}
    (hrep : ¬ (farewell tv threadName).Repeats S.last) :
    ∃ T, Logger.destroy (silent put) tv threadName S = some T ∧ T.last.repeat_ = 0 ∧
      (T.written.map LogContext.reported).sum = done.length + 1 ∧ Given put S₀.channels T := by
  have hlast : S.lastLog ≠ S.next := by
    rw [tallied.next]
    exact (fresh.allocated _ tallied.lastLog).ne
  have hbuilt : ((S.alloc (farewell tv threadName)).heap S.next).repeat_ = 0 := by
    rw [heap_alloc_self]
    rfl
  have hrep' : ¬ ((S.alloc (farewell tv threadName)).heap S.next).Repeats
      (S.alloc (farewell tv threadName)).last := by
    rwa [heap_alloc_self, last_alloc_of_ne _ hlast]
  obtain ⟨T, hT⟩ : ∃ T, Logger.writeChannels (silent put) (S.alloc (farewell tv threadName))
      S.next = some T := ⟨_, writeChannels_silent _ _⟩
  have hcount : T.last.repeat_ = 0 := count_of_not_repeats hT hrep'
  have htotal : T.accounted = done.length + 1 := by
    rw [← tallied.total, ← accounted_alloc_of_ne S hlast]
    refine accounted_writeChannels hT hlast.symm hbuilt ?_ fun h => absurd h hrep'
    rw [last_alloc_of_ne _ hlast]
    exact tallied.streak.1
  refine ⟨T, hT, hcount, ?_, (tallied.given.alloc _).writeChannels hT⟩
  rw [← htotal, accounted, hcount, add_zero, funext LogContext.reported_eq_max]

/-- On a new logger whose channels log nothing themselves, the messages given
to the channels and those still counted on the last one are all that were
logged, when at most `2 ^ 31` consecutive messages repeat each other. When
the message of `~Logger` does not repeat the last one, the lines printed and
the counts in them stand for all that were logged. Each channel is given what
`writeChannels_l` is called with. -/
theorem accounted_all {S : Logger n Channel} {ps : List Nat} (fresh : Fresh S ps)
    (varied : Varied S ps) (put : Channel → LogContext → Channel) :
    ∃ T, ps.foldlM (writeChannels (silent put)) S = some T ∧ T.accounted = ps.length ∧
      Given put S.channels T ∧
      ∀ tv threadName, ¬ (farewell tv threadName).Repeats T.last →
        ∃ U, destroy (silent put) tv threadName T = some U ∧ U.last.repeat_ = 0 ∧
          (U.written.map LogContext.reported).sum = ps.length + 1 ∧
          Given put S.channels U := by
  obtain ⟨T, hT, tallied⟩ := (tallied_init put fresh).run fresh varied
  rw [List.nil_append] at tallied
  exact ⟨T, hT, tallied.total, tallied.given,
    fun tv threadName hrep => tallied.destroy fresh hrep⟩

/-- A message of one text. -/
def message (file content : String) : LogContext where
  level := .LInfo
  line := 1
  repeat_ := 0
  file := file
  function := "main"
  flag := ""
  threadName := "main"
  tv := ⟨0, 0⟩
  content := content

/-- A new logger without channels, and messages at `1` to `k`. -/
def testLogger (content : Nat → String) (k : Nat) : Logger 0 ConsoleChannel where
  name := "test_logger"
  heap := fun p => if p = 0 then message "" "" else message "test_logger.cpp" (content p)
  next := k + 1
  lastLog := 0
  channels := fun _ => ⟨.LTrace, []⟩
  written := []

theorem heap_testLogger (content : Nat → String) (k : Nat) {p : Nat} (hp : p ≠ 0) :
    (testLogger content k).heap p = message "test_logger.cpp" (content p) :=
  if_neg hp

theorem fresh_testLogger (content : Nat → String) (k : Nat) :
    Fresh (testLogger content k) (List.range' 1 k) where
  written := rfl
  count := rfl
  noFile := rfl
  nodup := by
    refine List.nodup_cons.mpr ⟨?_, List.nodup_range'⟩
    rw [List.mem_range'_1]
    exact fun h => Nat.not_succ_le_zero 0 h.1
  allocated := by
    simp only [List.mem_cons, List.mem_range'_1]
    rintro p (rfl | ⟨-, hp⟩)
    · exact Nat.succ_pos k
    · exact hp.trans_eq (Nat.add_comm 1 k)
  built := by
    intro p hp
    rw [List.mem_range'_1] at hp
    rw [heap_testLogger content k (by omega)]
    exact ⟨rfl, by simp [message]⟩

/-- What a `ConsoleChannel` of these loggers does with a message. -/
def print : ConsoleChannel → LogContext → ConsoleChannel :=
  ConsoleChannel.write (fun _ => "1970-01-01 00:00:00.000") 1 "test_logger"

/-- One message is logged once and another one twice. -/
theorem accounted_all_repeatedOnce :
    ∃ T, [1, 2, 3].foldlM (writeChannels (silent print))
        (testLogger (fun p => if p = 1 then "once" else "again") 3) = some T ∧
      T.accounted = 3 := by
  have fresh := fresh_testLogger (fun p => if p = 1 then "once" else "again") 3
  obtain ⟨T, hT, htotal, -⟩ := accounted_all fresh
    (fun block hblock _ => hblock.length_le.trans (by decide)) print
  exact ⟨T, hT, htotal⟩

/-- After the first message each further one of the same text is counted. -/
theorem foldlM_same (content : String) (size k : Nat) :
    ∃ T, (List.range' 1 (k + 1)).foldlM (writeChannels (silent print))
        (testLogger (fun _ => content) size) = some T ∧
      T.written = [message "test_logger.cpp" content] ∧ T.lastLog = 1 ∧
      T.last = { message "test_logger.cpp" content with repeat_ := Int.bmod k (2 ^ 32) } ∧
      ∀ q > k + 1, T.heap q = message "test_logger.cpp" content := by
  induction k with
  | zero =>
      have hrep : ¬ ((testLogger (fun _ => content) size).heap 1).Repeats
          (testLogger (fun _ => content) size).last := by
        intro hrep
        have hfile : "test_logger.cpp" = "" := hrep.2.1
        simp at hfile
      refine ⟨handed print (testLogger (fun _ => content) size) (.ptr 1), ?_, rfl, rfl, ?_, ?_⟩
      · rw [List.range'_one, List.foldlM_cons, writeChannels_of_not_repeats hrep rfl]
        rfl
      · rw [last_handed]
        rfl
      · intro q hq
        rw [heap_handed, heap_setRepeat_of_ne _ _ (by simp [pointer]; omega),
          heap_testLogger _ _ (by omega)]
  | succ k ih =>
      obtain ⟨T, hT, hwritten, hlastLog, hlast, hheap⟩ := ih
      have hnext : T.heap (1 + (k + 1)) = message "test_logger.cpp" content :=
        hheap _ (by omega)
      have hrep : (T.heap (1 + (k + 1))).Repeats T.last := by
        rw [hnext, hlast]
        exact ⟨rfl, rfl, rfl, rfl⟩
      have hsoon : timevalDiff T.last.tv (T.heap (1 + (k + 1))).tv ≤ 500 := by
        rw [hnext, hlast]
        exact show (0 : Int) ≤ 500 by decide
      refine ⟨T.setRepeat T.lastLog (increment T.last.repeat_), ?_, hwritten, hlastLog, ?_, ?_⟩
      · rw [List.range'_1_concat, List.foldlM_append, hT, Option.bind_eq_bind, Option.bind_some,
          List.foldlM_cons,
          writeChannels_of_repeats hrep hsoon]
        rfl
      · rw [last_setRepeat_lastLog, hlast, increment, Int.bmod_add_bmod]
        rfl
      · intro q hq
        rw [heap_setRepeat_of_ne _ _ (by omega)]
        exact hheap q (by omega)

/-- When one message is repeated `2 ^ 31` times the count wraps, and the account is off. -/
theorem accounted_wraps :
    Fresh (testLogger (fun _ => "again") (2 ^ 31 + 1)) (List.range' 1 (2 ^ 31 + 1)) ∧
      ∃ T, (List.range' 1 (2 ^ 31 + 1)).foldlM (writeChannels (silent print))
          (testLogger (fun _ => "again") (2 ^ 31 + 1)) = some T ∧
        T.accounted ≠ (List.range' 1 (2 ^ 31 + 1)).length := by
  refine ⟨fresh_testLogger _ _, ?_⟩
  obtain ⟨T, hT, hwritten, -, hlast, -⟩ := foldlM_same "again" (2 ^ 31 + 1) (2 ^ 31)
  refine ⟨T, hT, ?_⟩
  rw [accounted, hwritten, hlast, List.length_range']
  decide

end Logger

end FFZKit.Util

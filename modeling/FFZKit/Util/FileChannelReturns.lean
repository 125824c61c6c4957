import FFZKit.Foundations.Settles
import FFZKit.Util.FileChannelRecursion
import Mathlib.Algebra.Order.BigOperators.Group.Finset
import Mathlib.Data.Fintype.Option
import Mathlib.Data.Fintype.Order

/-!
# When logging returns although files cannot be opened

Logging returns for every outcome of the opens exactly when no `FileChannel`
changes its file for what it is given. It also returns whenever each channel
can open its files from some attempt on, since each nested call uses up an
attempt that fails.
-/

namespace FFZKit.Util.Logger

open FFZKit.Foundations

variable {n : Nat} {Silent : Type*} {zone : Zone} {env : Env n}
  {put : Silent → LogContext → Silent}

/-- `Logger::write` returns after finitely many calls of itself. -/
def Returns (zone : Zone) (env : Env n) (put : Silent → LogContext → Silent)
    (S : Logger n (Channel Silent)) (p : Nat) : Prop :=
  ∃ T, Settles (fun k => write zone env put k S p) T

/-- Without a change of a file there is no nested call. -/
theorem returns_of_steady {S : Logger n (Channel Silent)} {p : Nat}
    (steady : Steady zone env.sizes S p) : Returns zone env put S p := by
  obtain ⟨T, hT⟩ : ∃ T, writeChannels (silent (Channel.accept put)) S p = some T :=
    ⟨_, writeChannels_silent S p⟩
  exact ⟨T, (settles_const T).succ fun k => (writeChannels_of_steady steady).trans hT⟩

/-! ## Opens that succeed in the end -/

/-- The number of times that a channel has opened a file. -/
def attempts : Channel Silent → Nat
  | .silent _ => 0
  | .file chn => chn.attempts

/-- The attempts before the `N`-th of each channel that are left. -/
def budget (N : Nat) (S : Logger n (Channel Silent)) : Nat :=
  ∑ i, (N - attempts (S.channels i))

theorem budget_setChannel_le {N : Nat} {S : Logger n (Channel Silent)} {i : Option (Fin n)}
    {chn : Channel Silent} (hle : attempts (S.channels i) ≤ attempts chn) :
    budget N (S.setChannel i chn) ≤ budget N S := by
  refine Finset.sum_le_sum fun j _ => Nat.sub_le_sub_left ?_ N
  by_cases hj : j = i
  · rw [hj, channels_setChannel_self]
    exact hle
  · rw [channels_setChannel_of_ne S chn hj]

theorem budget_setChannel_lt {N : Nat} {S : Logger n (Channel Silent)} {i : Option (Fin n)}
    {chn : Channel Silent} (hlt : attempts (S.channels i) < attempts chn)
    (hleft : attempts (S.channels i) < N) : budget N (S.setChannel i chn) < budget N S := by
  refine Finset.sum_lt_sum (fun j _ => Nat.sub_le_sub_left ?_ N) ⟨i, Finset.mem_univ i, ?_⟩
  · by_cases hj : j = i
    · rw [hj, channels_setChannel_self]
      exact hlt.le
    · rw [channels_setChannel_of_ne S chn hj]
  · rw [channels_setChannel_self]
    omega

theorem budget_modifyFile_le {N : Nat} {S : Logger n (Channel Silent)} {i : Option (Fin n)}
    {f : FileChannel → FileChannel} (hf : ∀ chn, (f chn).attempts = chn.attempts) :
    budget N (S.modifyFile i f) ≤ budget N S := by
  rw [modifyFile]
  split
  next => exact Nat.le_refl _
  next chn hchn =>
    refine budget_setChannel_le ?_
    rw [hchn]
    exact (hf chn).ge

theorem attempts_record (chn : FileChannel) (ctx : LogContext) :
    (chn.record ctx).attempts = chn.attempts := by
  rw [FileChannel.record]
  split <;> rfl

/-- The computation returns, and leaves no more attempts than there were. -/
def Within (N : Nat) (S : Logger n (Channel Silent))
    (F : Nat → Option (Logger n (Channel Silent))) : Prop :=
  ∃ T, Settles F T ∧ budget N T ≤ budget N S

section Budget

variable {N : Nat} {S S' : Logger n (Channel Silent)}

theorem within_const (hle : budget N S' ≤ budget N S) : Within N S fun _ => some S' :=
  ⟨S', settles_const S', hle⟩

theorem Within.trans {F : Nat → Option (Logger n (Channel Silent))} (h : Within N S' F)
    (hle : budget N S' ≤ budget N S) : Within N S F := by
  obtain ⟨T, hT, hle'⟩ := h
  exact ⟨T, hT, hle'.trans hle⟩

theorem Within.map {F : Nat → Option (Logger n (Channel Silent))}
    {f : Logger n (Channel Silent) → Logger n (Channel Silent)} (h : Within N S F)
    (hf : ∀ T, budget N (f T) ≤ budget N T) : Within N S fun k => (F k).map f := by
  obtain ⟨T, hT, hle⟩ := h
  exact ⟨f T, hT.map f, (hf T).trans hle⟩

theorem Within.bind {F : Nat → Option (Logger n (Channel Silent))}
    {G : Nat → Logger n (Channel Silent) → Option (Logger n (Channel Silent))}
    (h : Within N S F) (h' : ∀ T, budget N T ≤ budget N S → Within N T fun k => G k T) :
    Within N S fun k => (F k).bind (G k) := by
  obtain ⟨T, hT, hle⟩ := h
  obtain ⟨U, hU, hle'⟩ := h' T hle
  exact ⟨U, hT.bind hU, hle'.trans hle⟩

variable {bound : Nat}
  {nested : Nat → Logger n (Channel Silent) → Nat → Option (Logger n (Channel Silent))}

/-- The calls of `Logger::write` with less than `bound` attempts left return. -/
def Affordable (N bound : Nat)
    (nested : Nat → Logger n (Channel Silent) → Nat → Option (Logger n (Channel Silent))) : Prop :=
  ∀ S p, budget N S < bound → Within N S fun k => nested k S p

/-- A file is opened, or an attempt is used up by a nested call. -/
theorem changeFile_within (hopens : ∀ i k, N ≤ k → env.opens i k = true)
    (affordable : Affordable N bound nested) (hbound : budget N S ≤ bound) {i : Option (Fin n)}
    {chn chn' : FileChannel} (hchn : S.channels i = .file chn)
    (hsame : chn'.attempts = chn.attempts) (t : Int) :
    Within N S fun k => changeFile zone env (nested k) S i chn' t := by
  have hold : attempts (S.channels i) = chn'.attempts := by
    rw [hchn, hsame]
    rfl
  cases hok : env.opens i chn'.attempts with
  | true =>
      simp only [changeFile, hok, if_true]
      refine within_const (budget_setChannel_le ?_)
      rw [hold]
      exact Nat.le_succ chn'.attempts
  | false =>
      have hleft : chn'.attempts < N := by
        by_contra hge
        rw [hopens i _ (Nat.not_lt.mp hge)] at hok
        cases hok
      have hless : ∀ path tv, budget N (((S.setChannel i (.file ({ chn' with
          index := (chn'.index + 1) % 2 ^ 64 }.setPath path false))).alloc
            (openError zone path tv))) < budget N S := by
        intro path tv
        refine budget_setChannel_lt ?_ (hold ▸ hleft)
        rw [hold]
        exact Nat.lt_succ_self chn'.attempts
      simp only [changeFile, hok, if_false, Bool.false_eq_true]
      exact (affordable _ _ ((hless _ _).trans_le hbound)).trans (hless _ _).le

theorem checkSize_within (hopens : ∀ i k, N ≤ k → env.opens i k = true)
    (affordable : Affordable N bound nested) (hbound : budget N S ≤ bound) {i : Option (Fin n)}
    {chn : FileChannel} (hchn : S.channels i = .file chn) (t : Int) :
    Within N S fun k => checkSize zone env (nested k) S i chn t := by
  simp only [checkSize]
  split
  · refine Within.map ?_ fun T => budget_modifyFile_le fun _ => rfl
    split
    · exact changeFile_within hopens affordable hbound hchn (by rfl) t
    · refine within_const (budget_setChannel_le ?_)
      rw [hchn]
      exact Nat.le_refl _
  · exact within_const (Nat.le_refl _)

theorem deliver_within (hopens : ∀ i k, N ≤ k → env.opens i k = true)
    (affordable : Affordable N bound nested) (hbound : budget N S ≤ bound) (i : Option (Fin n))
    (ref : Ref) : Within N S fun k => deliver zone env (nested k) put S i ref := by
  cases hchn : S.channels i with
  | silent chn =>
      simp only [deliver, hchn]
      refine within_const (budget_setChannel_le ?_)
      rw [hchn]
      exact Nat.le_refl _
  | file chn =>
      simp only [deliver, hchn, writeFile]
      refine Within.map ?_ fun T => budget_modifyFile_le fun chn => ?_
      · split
        · exact changeFile_within hopens affordable hbound hchn (by rfl) _
        · exact checkSize_within hopens affordable hbound hchn _
      · split
        · exact attempts_record chn _
        · rfl

theorem writeChannels_l_within (hopens : ∀ i k, N ≤ k → env.opens i k = true)
    (affordable : Affordable N bound nested) (hbound : budget N S ≤ bound) (ref : Ref) :
    Within N S fun k => writeChannels_l (deliver zone env (nested k) put) S ref := by
  simp only [writeChannels_l]
  refine Within.map ?_ fun T => Nat.le_refl _
  refine Settles.foldlM (P := fun T => budget N T ≤ budget N S) (recipients n) ?_ (Nat.le_refl _)
  exact fun i _ T hle =>
    (deliver_within hopens affordable (hle.trans hbound) i ref).trans hle

theorem writeChannels_within (hopens : ∀ i k, N ≤ k → env.opens i k = true)
    (affordable : Affordable N bound nested) (hbound : budget N S ≤ bound) (p : Nat) :
    Within N S fun k => writeChannels (deliver zone env (nested k) put) S p := by
  by_cases hrep : (S.heap p).Repeats S.last
  · simp only [writeChannels_repeated hrep]
    split
    · exact writeChannels_l_within (S := (S.setRepeat S.lastLog _).setRepeat p _) hopens
        affordable hbound (.ptr p)
    · exact within_const (Nat.le_refl _)
  · simp only [writeChannels_different hrep]
    refine Within.bind ?_ fun T hle =>
      writeChannels_l_within hopens affordable (hle.trans hbound) (.ptr p)
    split
    · exact within_const (Nat.le_refl _)
    · exact writeChannels_l_within hopens affordable hbound .lastLog

end Budget

/-- Logging returns when each channel can open its files from its `N`-th attempt on. -/
theorem returns_of_opens {N : Nat} (hopens : ∀ i k, N ≤ k → env.opens i k = true)
    (S : Logger n (Channel Silent)) (p : Nat) : Returns zone env put S p := by
  suffices h : ∀ bound S p, budget N S < bound →
      Within N S fun k => write zone env put k S p by
    obtain ⟨T, hT, -⟩ := h _ S p (Nat.lt_succ_self _)
    exact ⟨T, hT⟩
  intro bound
  induction bound with
  | zero => exact fun S p hlt => absurd hlt (Nat.not_lt_zero _)
  | succ bound ih =>
      intro S p hlt
      obtain ⟨T, hT, hle⟩ := writeChannels_within hopens ih (Nat.le_of_lt_succ hlt) p
      exact ⟨T, hT.succ fun k => rfl, hle⟩

/-! ## Every outcome of the opens -/

/-- The time of the last check, if there are checks. -/
def lastCheckTime : Channel Silent → Int
  | .silent _ => 0
  | .file chn => chn.lastCheckTime

/-- Far enough from the last message its time does not matter. -/
theorem late_of_lt {tv : Timeval} {second : Int} (hlt : tv.sec + tv.usec.natAbs < second) :
    500 < timevalDiff tv ⟨second, 0⟩ := by
  have hms := Int.natAbs_tdiv_le_natAbs (0 - tv.usec) 1000
  rw [timevalDiff]
  dsimp only
  omega

/-- Some time is late for everything that the logger remembers. -/
theorem exists_late (S : Logger n (Channel Silent)) (p : Nat) :
    ∃ second, (S.heap p).tv.sec ≤ second ∧ 500 < timevalDiff S.last.tv ⟨second, 0⟩ ∧
      Due second S [S.last.tv.sec, (S.heap p).tv.sec] := by
  obtain ⟨check, hcheck⟩ := Finite.exists_le fun i => lastCheckTime (S.channels i)
  refine ⟨max (S.heap p).tv.sec (max (S.last.tv.sec + S.last.tv.usec.natAbs) check) + 61,
    ?_, ?_, Or.inr ⟨?_, ?_⟩⟩
  · omega
  · apply late_of_lt
    omega
  · simp only [List.mem_cons, List.not_mem_nil, or_false]
    rintro t (rfl | rfl)
    · omega
    · omega
  · intro i chn hchn
    have htime := hcheck i
    rw [hchn, lastCheckTime] at htime
    omega

/-- For given sizes of the streams, logging a message returns for all outcomes
of the opens and all clocks exactly when no `FileChannel` changes its file for
what it is given. It also returns when each channel can open its files from
some attempt on. -/
theorem write_returns_iff {S : Logger n (Channel Silent)} (hlast : S.lastLog < S.next)
    (zone : Zone) (put : Silent → LogContext → Silent) (p : Nat)
    (sizes : Option (Fin n) → Nat → Nat) :
    ((∀ env : Env n, env.sizes = sizes → (S.heap p).tv.sec ≤ (env.now S.next).sec →
        Returns zone env put S p) ↔ Steady zone sizes S p) ∧
      ∀ env : Env n, (∃ N, ∀ i k, N ≤ k → env.opens i k = true) → Returns zone env put S p := by
  refine ⟨⟨fun hreturns => ?_, ?_⟩, ?_⟩
  · by_contra hsteady
    obtain ⟨second, hsecond, hlate, due⟩ := exists_late S p
    obtain ⟨T, hT⟩ := hreturns (stuck sizes second) rfl hsecond
    exact not_settles_of_none (write_stuck ⟨hlast, hlate⟩ due hsteady) T hT
  · rintro steady env rfl -
    exact returns_of_steady steady
  · rintro env ⟨N, hopens⟩
    exact returns_of_opens hopens S p

/-! ## A directory that cannot be written -/

/-- A zone without an offset, on one day. -/
def utc : Zone where
  gmtoff := 0
  localDate := fun _ => (2023, 11, 14)
  threadName := "main"

/-- A message of that day. -/
def entry (file content : String) (second : Int) : LogContext where
  level := .LInfo
  line := 28
  repeat_ := 0
  file := file
  function := "main"
  flag := ""
  threadName := "main"
  tv := ⟨second, 0⟩
  content := content

/-- A logger with one `FileChannel` and a message at `1`. -/
def fileLogger (chn : FileChannel) : Logger 1 (Channel ConsoleChannel) where
  name := "test_logger"
  heap := fun p => if p = 0 then entry "" "" 0 else entry "test_logger.cpp" "done!" 1700000000
  next := 2
  lastLog := 0
  channels := fun i => if i = none then .silent ⟨.LTrace, []⟩ else .file chn
  written := []

/-- What the default channel of `fileLogger` does with a message. -/
def console : ConsoleChannel → LogContext → ConsoleChannel :=
  ConsoleChannel.write (fun _ => "2023-11-14 22:13:20.000") 1 "test_logger"

/-- The channel opened its file that day and last checked it two minutes ago. -/
def openedChannel : FileChannel :=
  { FileChannel.new .LTrace "log" 1 with
    path := "log/2023-11-14_00.log"
    isOpen := true
    canWrite := true
    lastDay := 19675
    lastCheckTime := 1699999880
    attempts := 1
    queries := 1
    writable := fun h => h }

theorem steady_openedChannel : Steady utc (fun _ _ => 4096) (fileLogger openedChannel) 1 := by
  intro i hi
  cases i with
  | none => simp [recipients] at hi
  | some i =>
      have hrep : ¬ ((fileLogger openedChannel).heap 1).Repeats (fileLogger openedChannel).last :=
        fun hrep => absurd hrep.2.2.1 (by decide)
      have hcount : (fileLogger openedChannel).last.repeat_ = 0 := rfl
      rw [delivered, if_neg hrep, if_pos hcount]
      exact Channel.keepsAll_singleton_iff.mpr
        ⟨by decide, fun _ => show openedChannel.size 4096 ≤ openedChannel.limit by decide⟩

/-- While the file is small the message returns even though opens fail. -/
theorem write_returns_iff_opened :
    Returns utc (stuck (fun _ _ => 4096) 1700000000) console (fileLogger openedChannel) 1 :=
  (write_returns_iff (by decide) utc console 1 fun _ _ => 4096).1.mpr steady_openedChannel _ rfl
    (by decide)

/-- The first message does not return when the directory cannot be written. -/
theorem write_unwritable :
    ¬ Returns utc (stuck (fun _ _ => 0) 1700000000) console
      (fileLogger (FileChannel.new .LTrace "log" 0)) 1 := by
  have poised : Poised 1700000000 (fileLogger (FileChannel.new .LTrace "log" 0)) :=
    ⟨by decide, by decide⟩
  have hshut : AnyShut 1700000000 (fileLogger (FileChannel.new .LTrace "log" 0)) :=
    ⟨some 0, by decide, _, rfl, rfl, by decide⟩
  rintro ⟨T, hT⟩
  exact not_settles_of_none (write_stuck poised (Or.inl hshut)
    (not_steady_of_shut poised hshut rfl)) T hT

end FFZKit.Util.Logger

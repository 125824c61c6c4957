import FFZKit.Poller.DelayTaskFlush
import Mathlib.Algebra.Ring.Int.Defs

/-!
# The wait that `getMinDelay` leads to

`runLoop` hands the answer of `getMinDelay` to `epoll_wait` as an `int`, or to
`fz_select` as seconds and microseconds. The wait is sound when it is not
negative, does not go past the earliest deadline, and is zero only at it. The time
left is that at the end of `getMinDelay`, which reads the clock at its beginning.
-/

namespace FFZKit.Poller.DelayTask

open FFZKit.Foundations

/-- The call that waits for events, and the number of bits of `tv_sec`: that of a `long`
or a `time_t`, which is 32 on Windows. -/
inductive Backend
  | epoll
  | select (tvSecBits : Nat)
  deriving DecidableEq, Repr

/-- The `int` that an `int64_t` is narrowed to. -/
def narrow (minDelay : Int) : Int := (BitVec.ofInt 32 minDelay).toInt

/-- `struct timeval` -/
structure Timeval where
  tvSec : Int
  tvUsec : Int
  deriving DecidableEq, Repr

/-- The `timeval` of `runLoop`, or null. The seconds are cast to the type of `tv_sec`. -/
def timeval (tvSecBits : Nat) (minDelay : Int) : Option Timeval :=
  if minDelay = -1 then none
  else some ⟨(BitVec.ofInt tvSecBits (minDelay.tdiv 1000)).toInt, 1000 * minDelay.tmod 1000⟩

/-- A wait is between zero and the time left, and zero only when none is left. -/
structure InTime (wait left : Int) : Prop where
  nonneg : 0 ≤ wait
  le : wait ≤ left
  zero : wait = 0 → left = 0

/-- What the wait call gets denotes a wait in time, where `left` is in milliseconds. -/
def Handed (backend : Backend) (minDelay left : Int) : Prop :=
  match backend with
  | .epoll => InTime (narrow minDelay) left
  | .select tvSecBits => ∃ tv, timeval tvSecBits minDelay = some tv ∧ 0 ≤ tv.tvSec ∧
      0 ≤ tv.tvUsec ∧ InTime (1000000 * tv.tvSec + tv.tvUsec) (1000 * left)

/-- What the conversion to the argument of the wait call leaves of a delay is not negative,
and zero only for zero. -/
def Converts : Backend → Nat → Prop
  | .epoll, n => n % 2 ^ 32 < 2 ^ 31 ∧ (n % 2 ^ 32 = 0 → n = 0)
  | .select tvSecBits, n =>
      2 * (n / 1000 % 2 ^ tvSecBits) < 2 ^ tvSecBits ∧
        (n / 1000 % 2 ^ tvSecBits = 0 → n % 1000 = 0 → n = 0)

instance (backend : Backend) (n : Nat) : Decidable (Converts backend n) :=
  match backend with
  | .epoll => inferInstanceAs (Decidable (_ ∧ _))
  | .select _ => inferInstanceAs (Decidable (_ ∧ _))

/-- A delay that survives the conversions. -/
def Waitable (backend : Backend) (n : Nat) : Prop := n < 2 ^ 63 ∧ Converts backend n

instance (backend : Backend) (n : Nat) : Decidable (Waitable backend n) :=
  inferInstanceAs (Decidable (_ ∧ _))

/-- The time left to a deadline, which is none when it has passed. -/
def timeLeft (deadline clock : Nat) : Int := ((deadline - clock : Nat) : Int)

/-- The deadline has not passed at the reading of the clock. When it is later the clock
has not gone on by the end, and when it is just then the clock has not gone back. -/
structure Timely (deadline nowTime ended : Nat) : Prop where
  le : nowTime ≤ deadline
  later : nowTime < deadline → ended ≤ nowTime
  due : nowTime = deadline → deadline ≤ ended

instance (deadline nowTime ended : Nat) : Decidable (Timely deadline nowTime ended) :=
  decidable_of_iff
    (nowTime ≤ deadline ∧ (nowTime < deadline → ended ≤ nowTime) ∧
      (nowTime = deadline → deadline ≤ ended))
    ⟨fun h => ⟨h.1, h.2.1, h.2.2⟩, fun h => ⟨h.le, h.later, h.due⟩⟩

/-- An `int` of some bits that a number is cut to. -/
theorem toInt_ofInt_natCast (bits n : Nat) :
    (BitVec.ofInt bits n).toInt =
      if 2 * (n % 2 ^ bits) < 2 ^ bits then ((n % 2 ^ bits : Nat) : Int)
      else ((n % 2 ^ bits : Nat) : Int) - (2 ^ bits : Nat) := by
  rw [BitVec.ofInt_natCast, BitVec.toInt_eq_toNat_cond, BitVec.toNat_ofNat]

theorem timeval_natCast (tvSecBits n : Nat) :
    timeval tvSecBits n =
      some ⟨(BitVec.ofInt tvSecBits ((n / 1000 : Nat) : Int)).toInt,
        ((1000 * (n % 1000) : Nat) : Int)⟩ := by
  have hne : (n : Int) ≠ -1 := by omega
  rw [timeval, if_neg hne]
  rfl

section Handed

variable {n : Nat} {left : Int} (hle : n ≤ left) (hzero : n = 0 → left = 0)

include hle hzero

/-- The low 32 bits of an answer are a wait in time when they are not negative, and zero
only if the answer is. -/
theorem handed_epoll_iff : Handed .epoll n left ↔ Converts .epoll n := by
  have hmod := Nat.mod_le n (2 ^ 32)
  have hlt := Nat.mod_lt n (Nat.two_pow_pos 32)
  rw [Handed, narrow, toInt_ofInt_natCast, Converts]
  constructor
  · rintro ⟨hnonneg, -, hnone⟩
    split at hnonneg
    · rename_i hlow
      rw [if_pos hlow] at hnone
      exact ⟨by omega, fun hcut => by have := hnone (by omega); omega⟩
    · omega
  · rintro ⟨hlow, hnone⟩
    rw [if_pos (by omega)]
    exact ⟨Int.natCast_nonneg _, by omega, fun hcut => hzero (hnone (by omega))⟩

/-- The seconds of an answer, cut to the bits of `tv_sec`, and the rest of it. -/
theorem handed_select_iff (tvSecBits : Nat) :
    Handed (.select tvSecBits) n left ↔ Converts (.select tvSecBits) n := by
  have hmod := Nat.mod_le (n / 1000) (2 ^ tvSecBits)
  have hlt := Nat.mod_lt (n / 1000) (Nat.two_pow_pos tvSecBits)
  simp only [Handed, timeval_natCast, Option.some.injEq, exists_eq_left', toInt_ofInt_natCast,
    Converts]
  generalize n / 1000 % 2 ^ tvSecBits = seconds at hmod hlt ⊢
  constructor
  · rintro ⟨hseconds, -, -, -, hnone⟩
    split at hseconds
    · rename_i hlow
      rw [if_pos hlow] at hnone
      refine ⟨hlow, fun hcut hrest => ?_⟩
      have hleft := hnone (by rw [hcut, hrest]; rfl)
      omega
    · omega
  · rintro ⟨hlow, hnone⟩
    rw [if_pos hlow]
    refine ⟨Int.natCast_nonneg _, Int.natCast_nonneg _, by omega, by omega, fun hwait => ?_⟩
    rw [hzero (hnone (by omega) (by omega)), Int.mul_zero]

end Handed

/-- The difference of two clock values as an `int64_t`. -/
theorem difference_cases {deadline nowTime : Nat} (hdeadline : deadline < 2 ^ 64)
    (hnow : nowTime < 2 ^ 64) :
    difference deadline nowTime =
      if (deadline + (2 ^ 64 - nowTime)) % 2 ^ 64 < 2 ^ 63 then
        (((deadline + (2 ^ 64 - nowTime)) % 2 ^ 64 : Nat) : Int)
      else (((deadline + (2 ^ 64 - nowTime)) % 2 ^ 64 : Nat) : Int) - 2 ^ 64 := by
  have hsub : (BitVec.ofNat 64 deadline - BitVec.ofNat 64 nowTime).toNat =
      (deadline + (2 ^ 64 - nowTime)) % 2 ^ 64 := by
    rw [BitVec.toNat_sub, BitVec.toNat_ofNat, BitVec.toNat_ofNat, Nat.mod_eq_of_lt hdeadline,
      Nat.mod_eq_of_lt hnow, Nat.add_comm]
  rw [difference, BitVec.toInt_eq_toNat_cond, hsub]
  split
  · rw [if_pos (by omega)]
  · rw [if_neg (by omega)]
    rfl

/-- An answer is in time exactly when it is exact and no time has passed since. -/
theorem inTime_difference_iff {deadline nowTime ended : Nat} (hdeadline : deadline < 2 ^ 64)
    (hnow : nowTime < 2 ^ 64) :
    InTime (difference deadline nowTime) (timeLeft deadline ended) ↔
      Timely deadline nowTime ended ∧ deadline - nowTime < 2 ^ 63 := by
  by_cases hfits : nowTime ≤ deadline ∧ deadline - nowTime < 2 ^ 63
  · obtain ⟨hle, hsmall⟩ := hfits
    rw [difference_eq hle hdeadline hsmall, timeLeft, and_iff_left hsmall]
    constructor
    · rintro ⟨-, hleft, hzero⟩
      exact ⟨hle, fun hlater => by omega, fun hdue => by have := hzero (by omega); omega⟩
    · rintro ⟨-, hlater, hdue⟩
      rcases hle.lt_or_eq with hlt | heq
      · have hended := hlater hlt
        exact ⟨by omega, by omega, fun hwait => by omega⟩
      · have hended := hdue heq
        exact ⟨by omega, by omega, fun _ => by omega⟩
  · refine iff_of_false (fun h => ?_) fun h => hfits ⟨h.1.le, h.2⟩
    obtain ⟨hnonneg, hleft, -⟩ := h
    simp only [difference_cases hdeadline hnow, timeLeft] at hnonneg hleft
    have hlt := Nat.mod_lt (deadline + (2 ^ 64 - nowTime)) (Nat.two_pow_pos 64)
    split at hnonneg
    · rename_i hlow
      rw [if_pos hlow] at hleft
      omega
    · omega

/-- The answer of `getMinDelay` for its first deadline, and what the wait call
gets of it, are in time exactly when the deadline has not passed, no time has passed
since the reading of the clock and the delay survives the conversions. -/
theorem wait_sound_iff (backend : Backend) {deadline nowTime ended : Nat}
    (hdeadline : deadline < 2 ^ 64) (hnow : nowTime < 2 ^ 64) :
    InTime (difference deadline nowTime) (timeLeft deadline ended) ∧
        Handed backend (difference deadline nowTime) (timeLeft deadline ended) ↔
      Timely deadline nowTime ended ∧ Waitable backend (deadline - nowTime) := by
  rw [inTime_difference_iff hdeadline hnow, Waitable, and_assoc]
  refine and_congr_right fun htimely => and_congr_right fun hsmall => ?_
  have hexact : difference deadline nowTime = ((deadline - nowTime : Nat) : Int) := by
    rw [difference_eq htimely.le hdeadline hsmall]
    have hle := htimely.le
    omega
  obtain ⟨-, hle, hzero⟩ := (inTime_difference_iff hdeadline hnow).mpr ⟨htimely, hsmall⟩
  rw [hexact] at hle hzero ⊢
  cases backend with
  | epoll => exact handed_epoll_iff hle fun hnone => hzero (by rw [hnone]; rfl)
  | select tvSecBits =>
      exact handed_select_iff hle (fun hnone => hzero (by rw [hnone]; rfl)) tvSecBits

end FFZKit.Poller.DelayTask

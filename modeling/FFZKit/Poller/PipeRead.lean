import FFZKit.Foundations.Transition

/-!
# The read handler of `Pipe`

The handler asks how many bytes there are, makes a buffer of one byte more, puts a
NUL behind the bytes, and reads. The writer goes on between the two system calls.

## Implementation notes

The buffer is a local array that is not initialised; `memory` gives what it holds.
`ioctl` may fail, and `nread` is then the 1024 that it was before. `read` returns
some of the bytes in the pipe, at most as many as it is asked for, or -1; the loop
that repeats it after a signal is its last round. `written` and `callbacks` are
histories.
-/

namespace FFZKit.Poller.PipeRead

open FFZKit.Foundations.Transition

/-- A call of the callback. -/
structure Callback where
  size : Int
  buf : List UInt8
  deriving DecidableEq, Repr

/-- The handler has not been called, or is between `ioctl` and `read`. -/
inductive Phase
  | idle
  | sized (nread : Nat) (buf : List UInt8)
  deriving DecidableEq, Repr

structure Pipe where
  bytes : List UInt8
  phase : Phase
  written : List UInt8
  callbacks : List Callback
  deriving DecidableEq, Repr

inductive Action
  | write (sent : List UInt8)
  | ioctl (succeeds : Bool) (memory : Nat → UInt8)
  | read (returned : Option Nat)

namespace Pipe

def init : Pipe where
  bytes := []
  phase := .idle
  written := []
  callbacks := []

/-- `char buf[nread + 1]; buf[nread] = '\\0';` -/
def buffer (nread : Nat) (memory : Nat → UInt8) : List UInt8 :=
  ((List.range (nread + 1)).map memory).set nread 0

def step (s : Pipe) : Action → Option Pipe
  | .write sent => some { s with bytes := s.bytes ++ sent, written := s.written ++ sent }
  | .ioctl succeeds memory =>
      match s.phase with
      | .idle =>
          let nread := if succeeds then s.bytes.length else 1024
          some { s with phase := .sized nread (buffer nread memory) }
      | .sized _ _ => none
  | .read returned =>
      match s.phase, returned with
      | .idle, _ => none
      | .sized _ buf, none =>
          some { s with phase := .idle, callbacks := s.callbacks ++ [⟨-1, buf⟩] }
      | .sized _ buf, some size =>
          if size ≤ s.bytes.length ∧ size ≤ buf.length then
            some { s with
              bytes := s.bytes.drop size
              phase := .idle
              callbacks := s.callbacks ++ [⟨size, s.bytes.take size ++ buf.drop size⟩] }
          else none

end Pipe

/-- The byte behind the data lies in the buffer and is NUL. -/
def Callback.Terminated (c : Callback) : Prop :=
  0 ≤ c.size → c.buf[c.size.toNat]? = some 0

instance (c : Callback) : Decidable c.Terminated :=
  inferInstanceAs (Decidable (_ → _))

/-- What a callback is given: its data. -/
def Callback.data (c : Callback) : List UInt8 := c.buf.take c.size.toNat

namespace Pipe

/-- The data of all callbacks. -/
def delivered (s : Pipe) : List UInt8 := s.callbacks.flatMap Callback.data

/-- `read` returns as many bytes as `ioctl` has reported, or fewer, and the byte
behind them happens to be NUL. -/
def Matched (s : Pipe) (a : Action) : Prop :=
  ∀ size nread buf, a = .read (some size) → s.phase = .sized nread buf →
    size = nread ∨ size < nread ∧ buf[size]? = some 0

/-- The handler has a buffer that ends with a NUL, and no byte is lost. -/
structure Sound (s : Pipe) : Prop where
  buffer : ∀ nread buf, s.phase = .sized nread buf →
    buf.length = nread + 1 ∧ buf[nread]? = some 0
  written : s.delivered ++ s.bytes = s.written

theorem sound_init : Sound init where
  buffer := by simp [init]
  written := rfl

theorem length_buffer (nread : Nat) (memory : Nat → UInt8) :
    (Pipe.buffer nread memory).length = nread + 1 := by
  simp [Pipe.buffer]

theorem getElem_buffer (nread : Nat) (memory : Nat → UInt8) :
    (Pipe.buffer nread memory)[nread]? = some 0 := by
  simp [Pipe.buffer]

/-- Everything that a step can do. -/
theorem step_cases {s t : Pipe} {a : Action} (moves : step s a = some t) :
    (∃ sent, a = .write sent ∧
      t = { s with bytes := s.bytes ++ sent, written := s.written ++ sent }) ∨
    (∃ succeeds memory nread, a = .ioctl succeeds memory ∧ s.phase = .idle ∧
      t = { s with phase := .sized nread (Pipe.buffer nread memory) }) ∨
    (∃ nread buf, a = .read none ∧ s.phase = .sized nread buf ∧
      t = { s with phase := .idle, callbacks := s.callbacks ++ [⟨-1, buf⟩] }) ∨
    ∃ size nread buf, a = .read (some size) ∧ s.phase = .sized nread buf ∧
      size ≤ s.bytes.length ∧ size ≤ buf.length ∧
      t = { s with
        bytes := s.bytes.drop size
        phase := .idle
        callbacks := s.callbacks ++ [⟨size, s.bytes.take size ++ buf.drop size⟩] } := by
  cases a with
  | write sent => exact Or.inl ⟨sent, rfl, (Option.some.inj moves).symm⟩
  | ioctl succeeds memory =>
      cases hphase : s.phase with
      | idle =>
          simp only [step, hphase] at moves
          exact Or.inr (Or.inl ⟨succeeds, memory, _, rfl, rfl, (Option.some.inj moves).symm⟩)
      | sized nread buf =>
          simp only [step, hphase] at moves
          cases moves
  | read returned =>
      cases hphase : s.phase with
      | idle =>
          simp only [step, hphase] at moves
          cases moves
      | sized nread buf =>
          cases returned with
          | none =>
              simp only [step, hphase] at moves
              exact Or.inr (Or.inr (Or.inl ⟨nread, buf, rfl, rfl, (Option.some.inj moves).symm⟩))
          | some size =>
              simp only [step, hphase] at moves
              by_cases hsize : size ≤ s.bytes.length ∧ size ≤ buf.length
              · rw [if_pos hsize] at moves
                exact Or.inr (Or.inr (Or.inr ⟨size, nread, buf, rfl, rfl, hsize.1, hsize.2,
                  (Option.some.inj moves).symm⟩))
              · rw [if_neg hsize] at moves
                cases moves

theorem data_of_read {bytes buf : List UInt8} {size : Nat} (hsize : size ≤ bytes.length) :
    Callback.data ⟨size, bytes.take size ++ buf.drop size⟩ = bytes.take size := by
  have hlength : (bytes.take size).length = size := List.length_take_of_le hsize
  exact List.take_left' hlength

theorem delivered_concat (s : Pipe) (bytes : List UInt8) (phase : Phase) (c : Callback) :
    delivered { s with bytes := bytes, phase := phase, callbacks := s.callbacks ++ [c] } =
      s.delivered ++ c.data := by
  simp [delivered]

theorem sound_step {s t : Pipe} {a : Action} (moves : step s a = some t) (h : Sound s) :
    Sound t := by
  obtain ⟨sent, -, rfl⟩ | ⟨succeeds, memory, nread, -, -, rfl⟩ | ⟨nread, buf, -, -, rfl⟩ |
    ⟨size, nread, buf, -, -, hbytes, -, rfl⟩ := step_cases moves
  · refine ⟨h.buffer, ?_⟩
    calc s.delivered ++ (s.bytes ++ sent) = s.delivered ++ s.bytes ++ sent :=
          (List.append_assoc _ _ _).symm
      _ = s.written ++ sent := congrArg (· ++ sent) h.written
  · refine ⟨?_, h.written⟩
    intro nread' buf' hphase
    obtain ⟨rfl, rfl⟩ := Phase.sized.inj hphase
    exact ⟨length_buffer nread memory, getElem_buffer nread memory⟩
  · refine ⟨fun _ _ hphase => Phase.noConfusion hphase, ?_⟩
    have hnone : Callback.data ⟨-1, buf⟩ = [] := List.take_zero
    rw [delivered_concat s s.bytes .idle, hnone, List.append_nil]
    exact h.written
  · refine ⟨fun _ _ hphase => Phase.noConfusion hphase, ?_⟩
    rw [delivered_concat s (s.bytes.drop size) .idle, data_of_read hbytes, List.append_assoc,
      List.take_append_drop]
    exact h.written

/-- What the callback finds behind the data stood there before `read`, or the data
reach to the end of the buffer. -/
theorem terminated_iff {s : Pipe} (h : Sound s) {size nread : Nat} {buf : List UInt8}
    (hphase : s.phase = .sized nread buf) (hbytes : size ≤ s.bytes.length)
    (hbuf : size ≤ buf.length) :
    Callback.Terminated ⟨size, s.bytes.take size ++ buf.drop size⟩ ↔
      size = nread ∨ size < nread ∧ buf[size]? = some 0 := by
  obtain ⟨hlength, hnul⟩ := h.buffer nread buf hphase
  have hbehind : (s.bytes.take size ++ buf.drop size)[size]? = buf[size]? := by
    have hfront : (s.bytes.take size).length = size := List.length_take_of_le hbytes
    rw [List.getElem?_append_right (Nat.le_of_eq hfront), hfront, Nat.sub_self, List.getElem?_drop,
      Nat.add_zero]
  have hterminated : Callback.Terminated ⟨size, s.bytes.take size ++ buf.drop size⟩ ↔
      buf[size]? = some 0 :=
    ⟨fun hread => hbehind ▸ hread (Int.natCast_nonneg size), fun hread _ => hbehind.trans hread⟩
  rw [hterminated]
  rcases Nat.lt_trichotomy size nread with hlt | rfl | hgt
  · exact ⟨fun hread => Or.inr ⟨hlt, hread⟩,
      fun hcase => hcase.elim (fun heq => absurd heq (Nat.ne_of_lt hlt)) And.right⟩
  · exact ⟨fun _ => Or.inl rfl, fun _ => hnul⟩
  · have hend : buf[size]? = none := List.getElem?_eq_none (by omega)
    rw [hend]
    exact iff_of_false (by simp) (by omega)

/-- Every callback so far has been given terminated data. -/
def AllTerminated (s : Pipe) : Prop := ∀ c ∈ s.callbacks, c.Terminated

/-- One step leaves all data terminated when they were and a read matches what was
reported. -/
theorem allTerminated_step_iff {s t : Pipe} {a : Action} (h : Sound s)
    (moves : step s a = some t) : AllTerminated t ↔ AllTerminated s ∧ Matched s a := by
  obtain ⟨sent, rfl, rfl⟩ | ⟨succeeds, memory, nread, rfl, -, rfl⟩ | ⟨nread, buf, rfl, -, rfl⟩ |
    ⟨size, nread, buf, rfl, hphase, hbytes, hbuf, rfl⟩ := step_cases moves
  · exact (and_iff_left nofun).symm
  · exact (and_iff_left nofun).symm
  · rw [and_iff_left (show Matched s (.read none) from nofun), AllTerminated, AllTerminated]
    have hfailed : Callback.Terminated ⟨-1, buf⟩ := fun hnonneg =>
      absurd hnonneg (show ¬ (0 : Int) ≤ -1 by decide)
    simp only [List.mem_append, List.mem_singleton, or_imp, forall_and, forall_eq]
    exact and_iff_left hfailed
  · have hmatched : Matched s (.read (some size)) ↔
        size = nread ∨ size < nread ∧ buf[size]? = some 0 := by
      constructor
      · exact fun hmatched => hmatched size nread buf rfl hphase
      · rintro hsize _ _ _ ⟨⟩ hphase'
        obtain ⟨rfl, rfl⟩ := Phase.sized.inj (hphase.symm.trans hphase')
        exact hsize
    rw [hmatched, ← terminated_iff h hphase hbytes hbuf, AllTerminated, AllTerminated]
    simp only [List.mem_append, List.mem_singleton, or_imp, forall_and, forall_eq]

/-- In a run of the writer and the handler the callbacks are given terminated data
whose concatenation is a prefix of what was written, exactly when every read
matches what was reported before it. -/
theorem handed_out_iff {as : List Action} {s : Pipe} (run : Run step anyStep init as s) :
    AllTerminated s ∧ s.delivered <+: s.written ↔ Run step Matched init as s := by
  have hsound : Sound s :=
    run.invariant (fun _ _ _ _ moves h => sound_step moves h) sound_init
  have hfront : s.delivered <+: s.written := ⟨s.bytes, hsound.written⟩
  rw [and_iff_left hfront, run.iff_guarded (fun _ _ _ => sound_step)
    (fun _ _ _ h moves => allTerminated_step_iff h moves) sound_init]
  exact and_iff_right (by simp [AllTerminated, init])

/-- Two bytes, read as `ioctl` has reported them. -/
theorem handed_out_iff_hi : ∃ s : Pipe, s.callbacks = [⟨2, [104, 105, 0]⟩] ∧
    (AllTerminated s ∧ s.delivered <+: s.written ↔
      Run step Matched init [.write [104, 105], .ioctl true fun _ => 7, .read (some 2)] s) := by
  have run : Run step anyStep init
      [.write [104, 105], .ioctl true fun _ => 7, .read (some 2)] _ :=
    Run.next trivial rfl <| Run.next trivial rfl <| Run.next trivial rfl Run.halt
  exact ⟨_, rfl, handed_out_iff run⟩

/-- The writer sends a byte between `ioctl` and `read`: the NUL is overwritten, and
the buffer ends where the data do. -/
theorem not_handed_out : ∃ (as : List Action) (s : Pipe), Run step anyStep init as s ∧
    s.callbacks = [⟨2, [104, 105]⟩] ∧ ¬ AllTerminated s := by
  have run : Run step anyStep init
      [.write [104], .ioctl true fun _ => 7, .write [105], .read (some 2)] _ :=
    Run.next trivial rfl <| Run.next trivial rfl <| Run.next trivial rfl <|
      Run.next trivial rfl Run.halt
  refine ⟨_, _, run, rfl, ?_⟩
  rw [AllTerminated]
  decide

end Pipe

end FFZKit.Poller.PipeRead

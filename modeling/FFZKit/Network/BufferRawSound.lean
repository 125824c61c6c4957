import FFZKit.Network.BufferRaw
import Mathlib.Order.Nat

/-!
# When the fields of a `BufferRaw` agree

`setCapacity` deletes the old block before it has a new one, so a failed
allocation leaves a pointer to a deleted block behind, and it leaves `size_`
alone when it shrinks the block. Apart from these two the fields agree after
every call.
-/

namespace FFZKit.Network.BufferRaw

open FFZKit.Foundations.Transition

/-- The buffer has no block, or a live one of `capacity_` bytes. -/
def Owns (s : BufferRaw) : Prop :=
  (s.data = none ∧ s.capacity = 0) ∨
    ∃ block bytes, s.data = some block ∧ s.blocks block = some bytes ∧ bytes.length = s.capacity

/-- The three fields agree. -/
structure WellFormed (s : BufferRaw) : Prop where
  owns : s.Owns
  size_le : s.size ≤ s.capacity

/-- What a call owes its caller. -/
structure Sound (s : BufferRaw) (a : Action) (t : BufferRaw) : Prop where
  wellFormed : t.WellFormed
  capacity : ∀ capacity fresh, a = .setCapacity capacity fresh →
    (s.setCapacity capacity fresh).2 = .returned → t.data ≠ none ∧ capacity ≤ t.capacity

/-- `setCapacity` deletes a block to make another one. -/
def Reallocates (s : BufferRaw) (capacity : Nat) : Prop :=
  s.data ≠ none ∧ ¬ s.Reuses capacity

/-- A block that is deleted is replaced, and by one that holds `size_` bytes
unless `assign` sets the size right after. -/
def Careful (s : BufferRaw) : Action → Prop
  | .setCapacity capacity fresh =>
      s.Reallocates capacity → fresh ≠ none ∧ s.size ≤ capacity
  | .setSize _ => True
  | .assign source size fresh => s.Reallocates (copied source size + 1) → fresh ≠ none

theorem wellFormed_init : WellFormed init where
  owns := Or.inl ⟨rfl, rfl⟩
  size_le := le_rfl

theorem Fits.length {bytes : List UInt8} {capacity : Nat} (h : Fits (some bytes) capacity) :
    bytes.length = capacity := by
  simpa [Fits] using h

/-- What `setCapacity` can do: keep the block, get a new one, fail without
having had one, or fail after deleting the one it had. -/
theorem setCapacity_cases (s : BufferRaw) (capacity : Nat) (fresh : Option (List UInt8)) :
    (s.data ≠ none ∧ s.Reuses capacity ∧ s.setCapacity capacity fresh = (s, .returned)) ∨
    (∃ bytes, fresh = some bytes ∧ ¬ (s.data ≠ none ∧ s.Reuses capacity) ∧
      (s.setCapacity capacity fresh).2 = .returned ∧
      (s.setCapacity capacity fresh).1.size = s.size ∧
      (s.setCapacity capacity fresh).1.capacity = capacity ∧
      (s.setCapacity capacity fresh).1.data = some s.allocated ∧
      (s.setCapacity capacity fresh).1.blocks s.allocated = some bytes) ∨
    (s.data = none ∧ fresh = none ∧ s.setCapacity capacity fresh = (s, .badAlloc)) ∨
    (∃ block, s.data = some block ∧ ¬ s.Reuses capacity ∧ fresh = none ∧
      s.setCapacity capacity fresh = (s.free block, .badAlloc)) := by
  cases hdata : s.data with
  | none =>
      cases fresh with
      | none => exact Or.inr (Or.inr (Or.inl ⟨rfl, rfl, by simp [setCapacity, hdata, allocate]⟩))
      | some bytes =>
          refine Or.inr (Or.inl ⟨bytes, rfl, by simp, ?_⟩)
          simp [setCapacity, hdata, allocate]
  | some block =>
      by_cases hreuses : s.Reuses capacity
      · exact Or.inl ⟨nofun, hreuses, by simp [setCapacity, hdata, hreuses]⟩
      · cases fresh with
        | none =>
            refine Or.inr (Or.inr (Or.inr ⟨block, rfl, hreuses, rfl, ?_⟩))
            simp [setCapacity, hdata, hreuses, allocate]
        | some bytes =>
            refine Or.inr (Or.inl ⟨bytes, rfl, fun h => hreuses h.2, ?_⟩)
            simp [setCapacity, hdata, hreuses, allocate, free]

/-- A successful `setCapacity` leaves a block that is large enough. -/
theorem setCapacity_returned {s : BufferRaw} (h : s.Owns) {capacity : Nat}
    {fresh : Option (List UInt8)} (hfits : Fits fresh capacity)
    (hreturned : (s.setCapacity capacity fresh).2 = .returned) :
    ∃ block bytes, (s.setCapacity capacity fresh).1.data = some block ∧
      (s.setCapacity capacity fresh).1.blocks block = some bytes ∧
      bytes.length = (s.setCapacity capacity fresh).1.capacity ∧
      capacity ≤ (s.setCapacity capacity fresh).1.capacity := by
  rcases setCapacity_cases s capacity fresh with ⟨hdata, hreuses, heq⟩ |
    ⟨bytes, rfl, _, _, _, hcapacity, hdata, hblock⟩ | ⟨_, _, heq⟩ | ⟨_, _, _, _, heq⟩
  · rw [heq]
    rcases h with ⟨hnone, _⟩ | ⟨block, bytes, hblock⟩
    · exact (hdata hnone).elim
    · exact ⟨block, bytes, hblock.1, hblock.2.1, hblock.2.2, hreuses.1⟩
  · exact ⟨s.allocated, bytes, hdata, hblock, by rw [hcapacity, hfits.length], hcapacity.ge⟩
  · rw [heq] at hreturned
    cases hreturned
  · rw [heq] at hreturned
    cases hreturned

/-- `setCapacity` keeps a block exactly when it does not lose one. -/
theorem owns_setCapacity_iff {s : BufferRaw} (h : s.Owns) {capacity : Nat}
    {fresh : Option (List UInt8)} (hfits : Fits fresh capacity) :
    (s.setCapacity capacity fresh).1.Owns ↔ (s.Reallocates capacity → fresh ≠ none) := by
  rcases setCapacity_cases s capacity fresh with ⟨_, hreuses, heq⟩ |
    ⟨bytes, rfl, _, hreturned, _⟩ | ⟨hdata, _, heq⟩ | ⟨block, hdata, hreuses, rfl, heq⟩
  · rw [heq]
    exact iff_of_true h fun hrealloc => (hrealloc.2 hreuses).elim
  · obtain ⟨block, bytes, howned⟩ := setCapacity_returned h hfits hreturned
    exact iff_of_true (Or.inr ⟨block, bytes, howned.1, howned.2.1, howned.2.2.1⟩) fun _ => nofun
  · rw [heq]
    exact iff_of_true h fun hrealloc => (hrealloc.1 hdata).elim
  · rw [heq]
    refine iff_of_false ?_ fun hkept => hkept ⟨by rw [hdata]; nofun, hreuses⟩ rfl
    rintro (⟨hnone, _⟩ | ⟨other, bytes, hother, hlive, _⟩)
    · rw [free, hdata] at hnone
      cases hnone
    · simp only [free, hdata, Option.some.injEq] at hother hlive
      rw [hother, Function.update_self] at hlive
      cases hlive

theorem setCapacity_size (s : BufferRaw) (capacity : Nat) (fresh : Option (List UInt8)) :
    (s.setCapacity capacity fresh).1.size = s.size := by
  rcases setCapacity_cases s capacity fresh with ⟨_, _, heq⟩ |
    ⟨_, _, _, _, hsize, _⟩ | ⟨_, _, heq⟩ | ⟨_, _, _, _, heq⟩
  · rw [heq]
  · exact hsize
  · rw [heq]
  · rw [heq]
    rfl

/-- A failed `setCapacity` leaves `size_` and `capacity_` alone. -/
theorem setCapacity_failed {s : BufferRaw} {capacity : Nat} {fresh : Option (List UInt8)}
    (hfailed : (s.setCapacity capacity fresh).2 ≠ .returned) :
    (s.setCapacity capacity fresh).2 = .badAlloc ∧
      (s.setCapacity capacity fresh).1.capacity = s.capacity := by
  rcases setCapacity_cases s capacity fresh with ⟨_, _, heq⟩ |
    ⟨_, _, _, hreturned, _⟩ | ⟨_, _, heq⟩ | ⟨_, _, _, _, heq⟩
  · rw [heq] at hfailed
    exact (hfailed rfl).elim
  · exact (hfailed hreturned).elim
  · rw [heq]
    exact ⟨rfl, rfl⟩
  · rw [heq]
    exact ⟨rfl, rfl⟩

theorem sound_setCapacity_iff {s : BufferRaw} (h : s.WellFormed) {capacity : Nat}
    {fresh : Option (List UInt8)} (hfits : Fits fresh capacity) :
    Sound s (.setCapacity capacity fresh) (s.setCapacity capacity fresh).1 ↔
      Careful s (.setCapacity capacity fresh) := by
  have howns := owns_setCapacity_iff h.owns hfits
  have hpromise : ∀ capacity' fresh', Action.setCapacity capacity fresh =
      .setCapacity capacity' fresh' → (s.setCapacity capacity' fresh').2 = .returned →
        (s.setCapacity capacity fresh).1.data ≠ none ∧
          capacity' ≤ (s.setCapacity capacity fresh).1.capacity := by
    intro capacity' fresh' heq hreturned
    cases heq
    obtain ⟨block, bytes, hdata, _, _, hle⟩ := setCapacity_returned h.owns hfits hreturned
    exact ⟨by rw [hdata]; nofun, hle⟩
  constructor
  · intro sound hrealloc
    have hfresh := howns.mp sound.wellFormed.owns hrealloc
    refine ⟨hfresh, ?_⟩
    have hsize := sound.wellFormed.size_le
    rw [setCapacity_size] at hsize
    rcases setCapacity_cases s capacity fresh with ⟨_, hreuses, _⟩ |
      ⟨_, _, _, _, _, hcapacity, _⟩ | ⟨_, hnone, _⟩ | ⟨_, _, _, hnone, _⟩
    · exact (hrealloc.2 hreuses).elim
    · exact hcapacity ▸ hsize
    · exact (hfresh hnone).elim
    · exact (hfresh hnone).elim
  · intro careful
    refine ⟨⟨howns.mpr fun hrealloc => (careful hrealloc).1, ?_⟩, hpromise⟩
    rw [setCapacity_size]
    rcases setCapacity_cases s capacity fresh with ⟨_, _, heq⟩ |
      ⟨_, _, hnew, _, _, hcapacity, _⟩ | ⟨_, _, heq⟩ | ⟨_, hdata, hreuses, hnone, _⟩
    · rw [heq]
      exact h.size_le
    · rw [hcapacity]
      by_cases hdata : s.data = none
      · rcases h.owns with ⟨_, hzero⟩ | ⟨_, _, hsome, _⟩
        · exact (h.size_le.trans hzero.le).trans (Nat.zero_le _)
        · rw [hdata] at hsome
          cases hsome
      · exact (careful ⟨hdata, fun hreuses => hnew ⟨hdata, hreuses⟩⟩).2
    · rw [heq]
      exact h.size_le
    · exact ((careful ⟨by rw [hdata]; nofun, hreuses⟩).1 hnone).elim

/-- Copying changes the bytes of the block and not their number. -/
theorem copy_block {s : BufferRaw} {block : Nat} {bytes source : List UInt8} {size : Nat}
    (hdata : s.data = some block) (hblock : s.blocks block = some bytes)
    (hsource : size ≤ source.length) (hroom : size + 1 ≤ bytes.length) :
    ∃ written, (s.copy source size).blocks block = some written ∧
      written.length = bytes.length ∧ written.take size = source.take size := by
  refine ⟨source.take size ++ 0 :: bytes.drop (size + 1), ?_, ?_, ?_⟩
  · simp [copy, hdata, hblock]
  · simp only [List.length_append, List.length_take, List.length_cons, List.length_drop]
    omega
  · rw [List.take_append_of_le_length (by simp [hsource]), List.take_take, Nat.min_self]

/-- `assign` succeeds when `setCapacity` does, and the buffer then holds the
bytes copied. -/
theorem assign_returned {s : BufferRaw} (h : s.Owns) {source : List UInt8} {size : Nat}
    {fresh : Option (List UInt8)} (hfits : Fits fresh (copied source size + 1))
    (hsource : copied source size ≤ source.length)
    (hreturned : (s.setCapacity (copied source size + 1) fresh).2 = .returned) :
    (s.assign source size fresh).2 = .returned ∧ (s.assign source size fresh).1.WellFormed ∧
      (s.assign source size fresh).1.toString = some (source.take (copied source size)) := by
  obtain ⟨block, bytes, hdata, hblock, hlength, hle⟩ := setCapacity_returned h hfits hreturned
  rcases hset : s.setCapacity (copied source size + 1) fresh with ⟨s', outcome⟩
  simp only [hset] at hreturned hdata hblock hlength hle
  obtain rfl : outcome = .returned := hreturned
  obtain ⟨written, hwritten, hsame, htake⟩ :=
    copy_block hdata hblock hsource (hle.trans_eq hlength.symm)
  have hcopy : (s'.copy source (copied source size)).data = some block ∧
      (s'.copy source (copied source size)).capacity = s'.capacity := by
    simp [copy, hdata]
  have hsize : ¬ (s'.copy source (copied source size)).capacity < copied source size := by
    rw [hcopy.2]
    omega
  have heq : s.assign source size fresh =
      ({ s'.copy source (copied source size) with size := copied source size }, .returned) := by
    simp only [assign, hset, setSize, if_neg hsize]
  rw [heq]
  refine ⟨rfl, ⟨Or.inr ⟨block, written, hcopy.1, hwritten, ?_⟩, ?_⟩, ?_⟩
  · rw [hsame, hlength]
    exact hcopy.2.symm
  · exact not_lt.mp hsize
  · have hroom : copied source size ≤ written.length := by omega
    simp only [toString, hcopy.1, hwritten, if_pos hroom, htake]

theorem strlen_le (source : List UInt8) : strlen source ≤ source.length :=
  (List.takeWhile_sublist _).length_le

theorem copied_le {source : List UInt8} {size : Nat} (h : size ≤ source.length) :
    copied source size ≤ source.length := by
  unfold copied
  split
  · exact strlen_le source
  · exact h

theorem sound_assign_iff {s : BufferRaw} (h : s.WellFormed) {source : List UInt8} {size : Nat}
    {fresh : Option (List UInt8)} (hsource : size ≤ source.length)
    (hfits : Fits fresh (copied source size + 1)) :
    Sound s (.assign source size fresh) (s.assign source size fresh).1 ↔
      Careful s (.assign source size fresh) := by
  have howns := owns_setCapacity_iff h.owns hfits
  by_cases hreturned : (s.setCapacity (copied source size + 1) fresh).2 = .returned
  · obtain ⟨block, bytes, hdata, hblock, hlength, _⟩ :=
      setCapacity_returned h.owns hfits hreturned
    have hcareful := howns.mp (Or.inr ⟨block, bytes, hdata, hblock, hlength⟩)
    have hwell := (assign_returned h.owns hfits (copied_le hsource) hreturned).2.1
    exact iff_of_true ⟨hwell, nofun⟩ hcareful
  · obtain ⟨hfailed, hcapacity⟩ := setCapacity_failed hreturned
    have hassign : (s.assign source size fresh).1 =
        (s.setCapacity (copied source size + 1) fresh).1 := by
      rcases hset : s.setCapacity (copied source size + 1) fresh with ⟨s', outcome⟩
      obtain rfl : outcome = .badAlloc := by rw [← hfailed, hset]
      simp only [assign, hset]
    constructor
    · intro sound
      exact howns.mp (hassign ▸ sound.wellFormed.owns)
    · intro careful
      refine ⟨⟨hassign ▸ howns.mpr careful, ?_⟩, nofun⟩
      rw [hassign, hcapacity, setCapacity_size]
      exact h.size_le

/-- From a buffer whose fields agree, a call does what it owes exactly when it
is careful. -/
theorem sound_iff {s t : BufferRaw} {a : Action} (h : s.WellFormed) (hstep : step s a = some t) :
    Sound s a t ↔ Careful s a := by
  cases a with
  | setCapacity capacity fresh =>
      simp only [step, Option.ite_none_right_eq_some, Option.some.injEq] at hstep
      obtain ⟨⟨_, hfits⟩, rfl⟩ := hstep
      exact sound_setCapacity_iff h hfits
  | setSize size =>
      simp only [step, Option.some.injEq] at hstep
      obtain rfl := hstep
      refine iff_of_true ⟨?_, nofun⟩ trivial
      unfold setSize
      split
      · exact h
      · rename_i hle
        exact ⟨h.owns, not_lt.mp hle⟩
  | assign source size fresh =>
      simp only [step, Option.ite_none_right_eq_some, Option.some.injEq] at hstep
      obtain ⟨⟨hsource, _, _, hfits⟩, rfl⟩ := hstep
      exact sound_assign_iff h hsource hfits

/-- Every call of a run does what it owes exactly when every call is careful. -/
theorem bufferRaw_sound_iff (as : List Action) (s : BufferRaw) :
    Run step (stepsWith step Sound) init as s ↔ Run step Careful init as s := by
  symm
  refine Run.congr (P := WellFormed) ?_ ?_ wellFormed_init
  · intro s a t careful hstep h
    exact ((sound_iff h hstep).mpr careful).wellFormed
  · intro s a t h hstep
    constructor
    · intro careful u hu
      obtain rfl := Option.some.inj (hstep.symm.trans hu)
      exact (sound_iff h hstep).mpr careful
    · intro sound
      exact (sound_iff h hstep).mp (sound t hstep)

/-- `toString` reads within the block. -/
theorem WellFormed.toString_isSome {s : BufferRaw} (h : s.WellFormed) : s.toString.isSome := by
  rcases h.owns with ⟨hdata, hcapacity⟩ | ⟨block, bytes, hdata, hblock, hlength⟩
  · have hsize : s.size = 0 := Nat.le_zero.mp (hcapacity ▸ h.size_le)
    simp [toString, hdata, hsize]
  · have hsize : s.size ≤ bytes.length := hlength ▸ h.size_le
    simp [toString, hdata, hblock, hsize]

/-- `create` empties the buffer, so a pooled one may be larger or smaller than
what is asked for. -/
theorem create_returned {s : BufferRaw} (h : s.Owns) {size : Nat}
    {fresh : Option (List UInt8)} (hfits : Fits fresh size)
    (hreturned : (s.create size fresh).2 = .returned) :
    (s.create size fresh).1.WellFormed ∧ size ≤ (s.create size fresh).1.capacity ∧
      (s.create size fresh).1.toString = some [] := by
  rcases hset : s.setCapacity size fresh with ⟨s', outcome⟩
  obtain rfl : outcome = .returned := by
    cases outcome <;> simp_all [create]
  obtain ⟨block, bytes, hdata, hblock, hlength, hle⟩ :=
    setCapacity_returned h hfits (by rw [hset])
  simp only [hset] at hdata hblock hlength hle
  have heq : s.create size fresh = ({ s' with size := 0 }, .returned) := by
    simp [create, hset, setSize]
  rw [heq]
  refine ⟨⟨Or.inr ⟨block, bytes, hdata, hblock, hlength⟩, Nat.zero_le _⟩, hle, ?_⟩
  simp [toString, hdata, hblock]

/-- A larger block is asked for and `new` throws: `data_` points to the deleted one. -/
def throwingGrow : List Action := [.setCapacity 1 (some [0]), .setCapacity 2 none]

theorem bufferRaw_dangles_throwingGrow :
    ¬ ∀ (as : List Action) (s : BufferRaw), Run step anyStep init as s →
      Run step (stepsWith step Sound) init as s := by
  intro h
  have run : Run step anyStep init throwingGrow _ := run_of_exec rfl fun _ _ _ => trivial
  cases h throwingGrow _ run with
  | next _ moves tail =>
      cases moves
      cases tail with
      | next sound =>
          rcases (sound _ rfl).wellFormed.owns with ⟨hdata, _⟩ | ⟨block, bytes, hdata, hblock, _⟩
          · cases hdata
          · cases hdata
            cases hblock

end FFZKit.Network.BufferRaw

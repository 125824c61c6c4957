import Mathlib.Data.Finset.Basic

/-!
# Computations that hold resources

A computation may acquire and release resources, of which its state holds a set.
The rules tell from the parts of a computation that it returns a resource and holds
one more, or that it returns the value that stands for none and holds no more.
-/

namespace FFZKit.Foundations

universe u

variable {σ α β ρ : Type u} [DecidableEq ρ] {held : σ → Finset ρ} {lost r : ρ}

/-- The computation leaves what is held as it is. -/
def Conserves (held : σ → Finset ρ) (m : StateM σ α) : Prop :=
  ∀ s, held (m.run s).2 = held s

/-- The computation returns a resource that it has acquired, or `lost` and has
acquired nothing. -/
def Acquires (held : σ → Finset ρ) (lost : ρ) (m : StateM σ ρ) : Prop :=
  ∀ s, (m.run s).1 = lost ∧ held (m.run s).2 = held s ∨
    (m.run s).1 ≠ lost ∧ (m.run s).1 ∉ held s ∧ held (m.run s).2 = insert (m.run s).1 (held s)

/-- The computation returns the resource `r`, or it has released it and returns
`lost`. -/
def HandsOn (held : σ → Finset ρ) (lost r : ρ) (m : StateM σ ρ) : Prop :=
  ∀ s, (m.run s).1 = r ∧ held (m.run s).2 = held s ∨
    (m.run s).1 = lost ∧ held (m.run s).2 = (held s).erase r

section conserves

variable {m n : StateM σ α} {f : α → StateM σ β} {c : Prop} [Decidable c]

omit [DecidableEq ρ]

theorem conserves_pure (a : α) : Conserves held (pure a : StateM σ α) := fun _ => rfl

theorem Conserves.bind (h : Conserves held m) (hf : ∀ a, Conserves held (f a)) :
    Conserves held (m >>= f) :=
  fun s => (hf (m.run s).1 (m.run s).2).trans (h s)

theorem Conserves.ite (hm : Conserves held m) (hn : Conserves held n) :
    Conserves held (if c then m else n) := by
  split
  · exact hm
  · exact hn

end conserves

section handsOn

variable {m n : StateM σ ρ} {k : StateM σ α} {f : α → StateM σ ρ} {c : Prop} [Decidable c]

theorem handsOn_pure (r : ρ) : HandsOn held lost r (pure r) := fun _ => Or.inl ⟨rfl, rfl⟩

theorem HandsOn.ite (hm : HandsOn held lost r m) (hn : HandsOn held lost r n) :
    HandsOn held lost r (if c then m else n) := by
  split
  · exact hm
  · exact hn

/-- The resource may be used before it is handed on. -/
theorem Conserves.bind_handsOn (h : Conserves held k) (hf : ∀ a, HandsOn held lost r (f a)) :
    HandsOn held lost r (k >>= f) := by
  intro s
  have hrest := hf (k.run s).1 (k.run s).2
  rw [h s] at hrest
  exact hrest

/-- Releasing the resource. -/
theorem handsOn_release {release : StateM σ α}
    (h : ∀ s, held (release.run s).2 = (held s).erase r) :
    HandsOn held lost r (release >>= fun _ => pure lost) :=
  fun s => Or.inr ⟨rfl, h s⟩

end handsOn

section acquires

variable {m : StateM σ ρ} {k : StateM σ α} {f : α → StateM σ ρ} {body : ρ → StateM σ ρ}

theorem acquires_lost : Acquires held lost (pure lost) := fun _ => Or.inl ⟨rfl, rfl⟩

theorem Conserves.bind_acquires (h : Conserves held k) (hf : ∀ a, Acquires held lost (f a)) :
    Acquires held lost (k >>= f) := by
  intro s
  have hrest := hf (k.run s).1 (k.run s).2
  rw [h s] at hrest
  exact hrest

/-- What goes on with a resource, which it may hand on or release, acquires it or not.
The result is checked against `lost` in whatever way. -/
theorem Acquires.bind_handsOn {failed : ρ → Prop} [DecidablePred failed]
    (h : Acquires held lost m) (hfailed : ∀ s, failed (m.run s).1 ↔ (m.run s).1 = lost)
    (hbody : ∀ r, HandsOn held lost r (body r)) :
    Acquires held lost (m >>= fun r => if failed r then pure lost else body r) := by
  intro s
  have hrun : (m >>= fun r => if failed r then pure lost else body r).run s =
      (if failed (m.run s).1 then pure lost else body (m.run s).1 : StateM σ ρ).run
        (m.run s).2 := rfl
  rw [hrun]
  rcases h s with ⟨hlost, hheld⟩ | ⟨hne, hnew, hheld⟩
  · rw [if_pos ((hfailed s).mpr hlost)]
    exact Or.inl ⟨rfl, hheld⟩
  · rw [if_neg (mt (hfailed s).mp hne)]
    rcases hbody (m.run s).1 (m.run s).2 with ⟨hresult, hkept⟩ | ⟨hresult, hreleased⟩
    · rw [hresult, hkept]
      exact Or.inr ⟨hne, hnew, hheld⟩
    · rw [hresult, hreleased, hheld, Finset.erase_insert hnew]
      exact Or.inl ⟨rfl, rfl⟩

/-- A resource that is held for a while only. -/
theorem Acquires.bind_release {lacking : StateM σ α} {using_ : ρ → StateM σ α}
    (h : Acquires held lost m) (hlacking : Conserves held lacking)
    (hrelease : ∀ r s, held ((using_ r).run s).2 = (held s).erase r) :
    Conserves held (m >>= fun r => if r = lost then lacking else using_ r) := by
  intro s
  have hrun : (m >>= fun r => if r = lost then lacking else using_ r).run s =
      (if (m.run s).1 = lost then lacking else using_ (m.run s).1 : StateM σ α).run
        (m.run s).2 := rfl
  rw [hrun]
  rcases h s with ⟨hlost, hheld⟩ | ⟨hne, hnew, hheld⟩
  · rw [if_pos hlost, hlacking, hheld]
  · rw [if_neg hne, hrelease, hheld, Finset.erase_insert hnew]

end acquires

end FFZKit.Foundations

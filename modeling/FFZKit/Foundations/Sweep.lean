import Mathlib.Data.List.Basic

/-!
# Making what is missing

A sweep goes over some keys in order. It makes each one that is missing, and
stops at the first one that cannot be made. What is there stays there.
-/

namespace FFZKit.Foundations

variable {σ κ : Type*}

/-- A way to make what is missing in a state. -/
structure Maker (σ κ : Type*) where
  has : σ → κ → Prop
  make : σ → κ → σ × Bool
  keeps : ∀ {s k k'}, has s k' → has (make s k).1 k'
  makes : ∀ {s k}, (make s k).2 = true → has (make s k).1 k

/-- A sweep over keys: which ones it tries to make, the state after it, and
whether it came to the end. -/
inductive Sweep (m : Maker σ κ) : List κ → σ → List κ → σ → Bool → Prop
  | done {s} : Sweep m [] s [] s true
  | skip {k keys s tried t ok} (there : m.has s k) (rest : Sweep m keys s tried t ok) :
      Sweep m (k :: keys) s tried t ok
  | make {k keys s tried t ok} (missing : ¬ m.has s k) (made : (m.make s k).2 = true)
      (rest : Sweep m keys (m.make s k).1 tried t ok) :
      Sweep m (k :: keys) s (k :: tried) t ok
  | fail {k keys s} (missing : ¬ m.has s k) (failed : (m.make s k).2 = false) :
      Sweep m (k :: keys) s [k] (m.make s k).1 false

namespace Sweep

variable {m : Maker σ κ} {keys tried : List κ} {s t : σ} {ok : Bool} {k : κ}

/-- The keys are tried in their order. -/
theorem sublist (h : Sweep m keys s tried t ok) : tried.Sublist keys := by
  induction h with
  | done => exact .slnil
  | skip there rest ih => exact ih.cons _
  | make missing made rest ih => exact ih.cons_cons _
  | fail missing failed => exact (List.nil_sublist _).cons_cons _

theorem keeps (h : Sweep m keys s tried t ok) (hk : m.has s k) : m.has t k := by
  induction h with
  | done => exact hk
  | skip there rest ih => exact ih hk
  | make missing made rest ih => exact ih (m.keeps hk)
  | fail missing failed => exact m.keeps hk

/-- A key that is tried was missing from the start. -/
theorem missing (h : Sweep m keys s tried t ok) : ∀ k ∈ tried, ¬ m.has s k := by
  induction h with
  | done => simp
  | skip there rest ih => exact ih
  | make missing made rest ih =>
      rw [List.forall_mem_cons]
      exact ⟨missing, fun k hk hthere => ih k hk (m.keeps hthere)⟩
  | fail missing failed => simpa using missing

/-- A sweep that comes to the end leaves nothing missing. -/
theorem complete (h : Sweep m keys s tried t true) : ∀ k ∈ keys, m.has t k := by
  generalize hok : true = ok at h
  induction h with
  | done => simp
  | skip there rest ih =>
      rw [List.forall_mem_cons]
      exact ⟨rest.keeps there, ih hok⟩
  | make missing made rest ih =>
      rw [List.forall_mem_cons]
      exact ⟨rest.keeps (m.makes made), ih hok⟩
  | fail missing failed => cases hok

/-- A sweep that stops has tried the key it stops at last, and left nothing
missing before it. -/
theorem stopped (h : Sweep m keys s tried t false) :
    ∃ front last back, keys = front ++ last :: back ∧ tried.getLast? = some last ∧
      ∀ k ∈ front, m.has t k := by
  generalize hok : false = ok at h
  induction h with
  | done => cases hok
  | @skip k keys s tried t ok there rest ih =>
      obtain ⟨front, last, back, rfl, hlast, hfront⟩ := ih hok
      refine ⟨k :: front, last, back, rfl, hlast, ?_⟩
      rw [List.forall_mem_cons]
      exact ⟨rest.keeps there, hfront⟩
  | @make k keys s tried t ok missing made rest ih =>
      obtain ⟨front, last, back, rfl, hlast, hfront⟩ := ih hok
      refine ⟨k :: front, last, back, rfl, ?_, ?_⟩
      · rw [List.getLast?_cons, hlast, Option.getD_some]
      · rw [List.forall_mem_cons]
        exact ⟨rest.keeps (m.makes made), hfront⟩
  | @fail k keys s missing failed => exact ⟨[], k, keys, rfl, rfl, by simp⟩

/-- Where nothing is missing a sweep tries nothing. -/
theorem idle (h : Sweep m keys s tried t ok) (hall : ∀ k ∈ keys, m.has s k) :
    tried = [] ∧ t = s ∧ ok = true := by
  induction h with
  | done => exact ⟨rfl, rfl, rfl⟩
  | skip there rest ih => exact ih (List.forall_mem_cons.mp hall).2
  | make missing made rest ih => exact absurd (List.forall_mem_cons.mp hall).1 missing
  | fail missing failed => exact absurd (List.forall_mem_cons.mp hall).1 missing

end Sweep

end FFZKit.Foundations

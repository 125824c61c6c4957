import FFZKit.Win32.WepollHandle
import Mathlib.Algebra.Group.Nat.Defs

/-!
# The life of a wepoll port

Every port is in the tree, or one thread has it. The counter tells how many threads are
in the port, and whether one waits for them, so the last one that leaves wakes it.
-/

namespace FFZKit.Win32.EpollHandle

open FFZKit.Foundations FFZKit.Foundations.Transition

section Counter

variable {state : Nat}

/-- A mask of high bits takes them out of the quotient. -/
theorem and_mul_two_pow (x m k : Nat) : x &&& (m * 2 ^ k) = (x / 2 ^ k &&& m) * 2 ^ k := by
  apply Nat.eq_of_testBit_eq
  intro i
  rw [Nat.testBit_and, Nat.testBit_mul_two_pow, Nat.testBit_mul_two_pow, Nat.testBit_and,
    Nat.testBit_div_two_pow]
  by_cases hi : k ≤ i
  · rw [Nat.sub_add_cancel hi]
    simp [hi]
  · simp [hi]

theorem reflockRef_eq (h : state < 0x0fffffff) : reflockRef state = some (state + 1) := by
  have hadd : interlockedAdd state REFLOCK_REF = state + 1 :=
    Nat.mod_eq_of_lt (by simp only [REFLOCK_REF]; omega)
  have hmask : state + 1 &&& REFLOCK_DESTROY_MASK = 0 := by
    have hzero : (state + 1) / 2 ^ 28 = 0 := Nat.div_eq_of_lt (by omega)
    rw [show REFLOCK_DESTROY_MASK = 15 * 2 ^ 28 from rfl, and_mul_two_pow, hzero]
    rfl
  rw [reflockRef]
  simp only [hadd, hmask, if_true]

theorem reflockUnref_eq (hpos : 0 < state) (h : state ≤ 0x1fffffff) :
    reflockUnref state = some (state - 1) := by
  have hadd : interlockedAdd state (0x100000000 - REFLOCK_REF) = state - 1 := by
    simp only [interlockedAdd, REFLOCK_REF]
    omega
  have hmask : state - 1 &&& (REFLOCK_DESTROY_MASK - REFLOCK_DESTROY) = 0 := by
    have hzero : (state - 1) / 2 ^ 29 = 0 := Nat.div_eq_of_lt (by omega)
    rw [show REFLOCK_DESTROY_MASK - REFLOCK_DESTROY = 7 * 2 ^ 29 from rfl, and_mul_two_pow, hzero]
    rfl
  rw [reflockUnref]
  simp only [hadd, hmask, if_true]

theorem reflockUnrefAndDestroy_eq (hpos : 0 < state) (h : state ≤ 0x0fffffff) :
    reflockUnrefAndDestroy state = some (REFLOCK_DESTROY + (state - 1)) := by
  have hadd : interlockedAdd state (REFLOCK_DESTROY - REFLOCK_REF) =
      REFLOCK_DESTROY + (state - 1) := by
    simp only [interlockedAdd, REFLOCK_DESTROY, REFLOCK_REF]
    omega
  have hmask : REFLOCK_DESTROY + (state - 1) &&& REFLOCK_DESTROY_MASK = REFLOCK_DESTROY := by
    have hone : (REFLOCK_DESTROY + (state - 1)) / 2 ^ 28 = 1 := by
      simp only [REFLOCK_DESTROY]
      omega
    rw [show REFLOCK_DESTROY_MASK = 15 * 2 ^ 28 from rfl, and_mul_two_pow, hone]
    rfl
  rw [reflockUnrefAndDestroy]
  simp only [hadd, hmask, if_true]

/-- `ref_count` of `reflock_unref_and_destroy`. -/
theorem and_refMask (h : state ≤ 0x0fffffff) :
    REFLOCK_DESTROY + state &&& REFLOCK_REF_MASK = state := by
  rw [show REFLOCK_REF_MASK = 2 ^ 28 - 1 from rfl, Nat.and_two_pow_sub_one_eq_mod]
  simp only [REFLOCK_DESTROY]
  omega

end Counter

section Books

/-- One thread is in the role. -/
def one (o : Option Role) (r : Role) : Nat := if o = some r then 1 else 0

/-- A thread goes from one role to another one, or from no role or to none. -/
def Moved (n n' : Role → Nat) (o o' : Option Role) : Prop :=
  ∀ r, n' r + one o r = n r + one o' r

/-- What the numbers of threads at a port tell of its counter, and whether its handle is
open, and whether it is in the tree. -/
structure Balanced (n : Role → Nat) (reflock opened listed : Nat) : Prop where
  owner : n .creating + n .removing + n .closing + n .awaiting + n .poisoning + n .deleting +
    listed = 1
  counter : n .deleting = 0 → reflock =
    n .using + n .removing + n .closing + 0x10000000 * (n .awaiting + n .poisoning)
  quiet : 0 < n .creating + n .poisoning + n .deleting → n .using = 0
  signalled : n .awaiting = 1 ∧ n .using = 0 → n .signalling = 1
  unsignalled : n .awaiting = 0 ∨ 0 < n .using → n .signalling = 0
  locating : 0 < n .locating → listed = 1
  iocpOpen : opened = n .creating + n .removing + listed

variable {n n' n'' : Role → Nat} {reflock opened listed : Nat} {o o' : Option Role}

theorem Moved.all (h : Moved n n' o o') :
    (n' .creating + one o .creating = n .creating + one o' .creating ∧
      n' .locating + one o .locating = n .locating + one o' .locating ∧
      n' .using + one o .using = n .using + one o' .using) ∧
    (n' .removing + one o .removing = n .removing + one o' .removing ∧
      n' .closing + one o .closing = n .closing + one o' .closing ∧
      n' .awaiting + one o .awaiting = n .awaiting + one o' .awaiting) ∧
    n' .poisoning + one o .poisoning = n .poisoning + one o' .poisoning ∧
      n' .deleting + one o .deleting = n .deleting + one o' .deleting ∧
      n' .signalling + one o .signalling = n .signalling + one o' .signalling :=
  ⟨⟨h _, h _, h _⟩, ⟨h _, h _, h _⟩, h _, h _, h _⟩

theorem Moved.same (h : Moved n n' o o) : n' = n := by
  funext r
  exact Nat.add_right_cancel (h r)

theorem Balanced.create (hzero : ∀ r, n r = 0) (hm : Moved n n' none (some .creating)) :
    Balanced n' 0 1 0 := by
  have hall := hm.all
  simp [one, hzero] at hall
  constructor <;> omega

theorem Balanced.add (h : Balanced n reflock opened 0) (hm : Moved n n' (some .creating) none) :
    Balanced n' reflock opened 1 := by
  obtain ⟨howner, hcounter, hquiet, hsignalled, hunsignalled, hlocating, hopen⟩ := h
  have hall := hm.all
  simp [one] at hall
  constructor <;> omega

theorem Balanced.locate (h : Balanced n reflock opened 1) (hm : Moved n n' none (some .locating)) :
    Balanced n' reflock opened 1 := by
  obtain ⟨howner, hcounter, hquiet, hsignalled, hunsignalled, hlocating, hopen⟩ := h
  have hall := hm.all
  simp [one] at hall
  constructor <;> omega

/-- The port that a thread has found is in the tree, so its counter has no flag. -/
theorem Balanced.ref (h : Balanced n reflock opened listed)
    (hm : Moved n n' (some .locating) (some .using)) :
    reflock = n .using ∧ Balanced n' (reflock + 1) opened listed := by
  obtain ⟨howner, hcounter, hquiet, hsignalled, hunsignalled, hlocating, hopen⟩ := h
  have hall := hm.all
  simp [one] at hall
  refine ⟨by omega, ?_⟩
  constructor <;> omega

theorem Balanced.remove (h : Balanced n reflock opened 1) (hm : Moved n n' none (some .removing))
    (hunlocked : n .locating = 0) :
    reflock = n .using ∧ Balanced n' (reflock + 1) opened 0 := by
  obtain ⟨howner, hcounter, hquiet, hsignalled, hunsignalled, hlocating, hopen⟩ := h
  have hall := hm.all
  simp [one] at hall
  refine ⟨by omega, ?_⟩
  constructor <;> omega

/-- Only the last thread that leaves, and only where one waits for it, signals. -/
theorem Balanced.unref (h : Balanced n reflock opened listed)
    (hm : Moved n n' (some .using)
      (if reflock - 1 = REFLOCK_DESTROY then some .signalling else none))
    (hthreads : n .using < 0x0fffffff) :
    0 < reflock ∧ reflock ≤ 0x1fffffff ∧
      Balanced n' (reflock - 1) opened listed := by
  obtain ⟨howner, hcounter, hquiet, hsignalled, hunsignalled, hlocating, hopen⟩ := h
  have hall := hm.all
  simp only [REFLOCK_DESTROY] at hall
  by_cases hlast : reflock - 1 = 0x10000000
  · simp [one, hlast] at hall
    refine ⟨by omega, by omega, ?_⟩
    constructor <;> omega
  · simp [one, hlast] at hall
    refine ⟨by omega, by omega, ?_⟩
    constructor <;> omega

theorem Balanced.close (h : Balanced n reflock opened listed)
    (hm : Moved n n' (some .removing) (some .closing)) :
    Balanced n' reflock 0 listed := by
  obtain ⟨howner, hcounter, hquiet, hsignalled, hunsignalled, hlocating, hopen⟩ := h
  have hall := hm.all
  simp [one] at hall
  constructor <;> omega

/-- The thread that closes the port waits unless nobody else is in it. -/
theorem Balanced.destroy (h : Balanced n reflock opened listed)
    (hm : Moved n n' (some .closing)
      (if reflock - 1 ≠ 0 then some .awaiting else some .poisoning)) :
    0 < reflock ∧ reflock ≤ n .using + 1 ∧
      Balanced n' (REFLOCK_DESTROY + (reflock - 1)) opened listed := by
  obtain ⟨howner, hcounter, hquiet, hsignalled, hunsignalled, hlocating, hopen⟩ := h
  have hall := hm.all
  simp only [REFLOCK_DESTROY]
  by_cases hfree : reflock - 1 = 0
  · simp [one, hfree] at hall
    refine ⟨by omega, by omega, ?_⟩
    constructor <;> omega
  · simp [one, hfree] at hall
    refine ⟨by omega, by omega, ?_⟩
    constructor <;> omega

theorem Balanced.signal (h : Balanced n reflock opened listed)
    (hm : Moved n n' (some .signalling) none)
    (hm' : Moved n' n'' (some .awaiting) (some .poisoning)) :
    Balanced n'' reflock opened listed := by
  obtain ⟨howner, hcounter, hquiet, hsignalled, hunsignalled, hlocating, hopen⟩ := h
  have hall := hm.all
  have hall' := hm'.all
  simp [one] at hall hall'
  constructor <;> omega

theorem Balanced.poison (h : Balanced n reflock opened listed)
    (hm : Moved n n' (some .poisoning) (some .deleting)) (state : Nat) :
    reflock = REFLOCK_DESTROY ∧ Balanced n' state opened listed := by
  obtain ⟨howner, hcounter, hquiet, hsignalled, hunsignalled, hlocating, hopen⟩ := h
  have hall := hm.all
  simp [one] at hall
  refine ⟨by simp only [REFLOCK_DESTROY]; omega, ?_⟩
  constructor <;> omega

/-- Nobody is left at the port when it is freed, and `iocp_handle` is not set any more. -/
theorem Balanced.delete (h : Balanced n reflock opened listed)
    (hm : Moved n n' (some .deleting) none) :
    opened = 0 ∧ listed = 0 ∧ ∀ r, n' r = 0 := by
  obtain ⟨howner, hcounter, hquiet, hsignalled, hunsignalled, hlocating, hopen⟩ := h
  have hall := hm.all
  simp [one] at hall
  refine ⟨by omega, by omega, ?_⟩
  intro r
  cases r <;> omega

end Books

section Lifetime

variable {ι : Type*} [Fintype ι] {s s' : Handles ι} {i j : ι} {a b : Nat}
  {r : Role} {phase : Phase} {p p' : PortState}

/-- The role that a thread has at an address. -/
def Phase.roleAt (a : Nat) : Phase → Option Role
  | .idle => none
  | .busy r b => if b = a then some r else none

/-- The thread is not with a port at another address. -/
def Phase.Within (a : Nat) (phase : Phase) : Prop := ∀ b, b ≠ a → phase.roleAt b = none

theorem roleAt_self (r : Role) (a : Nat) : (Phase.busy r a).roleAt a = some r := if_pos rfl

theorem within_busy (r : Role) (a : Nat) : (Phase.busy r a).Within a :=
  fun _ hb => if_neg (Ne.symm hb)

theorem within_idle (a : Nat) : Phase.idle.Within a := fun _ _ => rfl

/-- A thread in the role has the port to itself, apart from those that are in the port. -/
def Role.owns : Role → Bool
  | .creating | .removing | .closing | .awaiting | .poisoning | .deleting => true
  | .locating | .using | .signalling => false

namespace Handles

/-- The thread is the one that adds the port at an address, or closes it. -/
def Owner (s : Handles ι) (a : Nat) (i : ι) : Prop :=
  ∃ r, r.owns = true ∧ s.phases i = .busy r a

/-- The number of threads that are in a role at an address. -/
def number (s : Handles ι) (a : Nat) (r : Role) : Nat :=
  tally (fun phase => decide (phase = .busy r a)) s.phases

/-- 1 when the port at an address is in the tree. -/
def listed (s : Handles ι) (a : Nat) (p : PortState) : Nat :=
  if s.tree p.handle = some a then 1 else 0

/-- Nothing went wrong; the tree has ports under their handles; no two ports have the same
handle open; no thread is where there is no port, and every port is balanced. -/
structure Sound (s : Handles ι) : Prop where
  whole : s.broken = false
  tree : ∀ h a, s.tree h = some a → ∃ p, s.ports.get? a = some p ∧ p.handle = h
  distinct : ∀ a b p q, s.ports.get? a = some p → s.ports.get? b = some q →
    p.iocpOpen = true → q.iocpOpen = true → p.handle = q.handle → a = b
  absent : ∀ a, s.ports.get? a = none → ∀ r, s.number a r = 0
  balanced : ∀ a p, s.ports.get? a = some p →
    Balanced (s.number a) p.reflock p.iocpOpen.toNat (s.listed a p)

theorem sound_init : (init : Handles ι).Sound where
  whole := rfl
  tree := fun _ _ h => nomatch h
  distinct := fun _ _ _ _ h => nomatch h
  absent := fun _ _ _ => tally_eq_zero_iff.mpr fun _ => rfl
  balanced := fun _ _ h => nomatch h

theorem number_pos (hi : s.phases i = .busy r a) : 0 < s.number a r := by
  apply tally_pos (i := i)
  rw [hi, decide_eq_true_iff]

theorem exists_of_number_pos (h : 0 < s.number a r) : ∃ i, s.phases i = .busy r a := by
  obtain ⟨i, hi⟩ := exists_of_tally_pos h
  exact ⟨i, of_decide_eq_true hi⟩

/-- A thread is with a port that is there, and that is balanced. -/
theorem Sound.exists_port (h : s.Sound) (hi : s.phases i = .busy r a) :
    ∃ p, s.ports.get? a = some p ∧
      Balanced (s.number a) p.reflock p.iocpOpen.toNat (s.listed a p) := by
  cases hp : s.ports.get? a with
  | none => exact absurd (h.absent a hp r) (number_pos hi).ne'
  | some p => exact ⟨p, rfl, h.balanced a p hp⟩

/-- A port in the tree has its handle open. -/
theorem Sound.opened_of_tree (h : s.Sound) {k : Nat} (hk : s.tree k = some a) :
    ∃ p, s.ports.get? a = some p ∧ p.handle = k ∧ p.iocpOpen = true ∧ s.listed a p = 1 := by
  obtain ⟨p, hp, hkey⟩ := h.tree k a hk
  have hlisted : s.listed a p = 1 := if_pos (hkey ▸ hk)
  have hopen := (h.balanced a p hp).iocpOpen
  refine ⟨p, hp, hkey, ?_, hlisted⟩
  by_contra hclosed
  rw [Bool.eq_false_of_not_eq_true hclosed, Bool.toNat_false] at hopen
  omega

/-- A step that is about one address keeps what is at the others. -/
theorem Sound.of_local (h : s.Sound) (whole : s'.broken = false)
    (number : ∀ b, b ≠ a → s'.number b = s.number b)
    (ports : ∀ b, b ≠ a → s'.ports.get? b = s.ports.get? b)
    (others : ∀ h b, b ≠ a → (s'.tree h = some b ↔ s.tree h = some b))
    (tree : ∀ h, s'.tree h = some a → ∃ p, s'.ports.get? a = some p ∧ p.handle = h)
    (distinct : ∀ p, s'.ports.get? a = some p → p.iocpOpen = true → ∀ b q, b ≠ a →
      s.ports.get? b = some q → q.iocpOpen = true → q.handle ≠ p.handle)
    (absent : s'.ports.get? a = none → ∀ r, s'.number a r = 0)
    (balanced : ∀ p, s'.ports.get? a = some p →
      Balanced (s'.number a) p.reflock p.iocpOpen.toNat (s'.listed a p)) : s'.Sound where
  whole := whole
  tree := by
    intro k b hb
    by_cases hba : b = a
    · exact hba ▸ tree k (hba ▸ hb)
    · rw [ports b hba]
      exact h.tree k b ((others k b hba).mp hb)
  distinct := by
    intro b c p q hp hq hopen hopen' hsame
    by_cases hba : b = a
    · by_cases hca : c = a
      · exact hba.trans hca.symm
      · rw [ports c hca] at hq
        exact absurd hsame.symm (distinct p (hba ▸ hp) hopen c q hca hq hopen')
    · rw [ports b hba] at hp
      by_cases hca : c = a
      · exact absurd hsame (distinct q (hca ▸ hq) hopen' b p hba hp hopen)
      · rw [ports c hca] at hq
        exact h.distinct b c p q hp hq hopen hopen' hsame
  absent := by
    intro b hnone
    by_cases hba : b = a
    · exact hba ▸ absent (hba ▸ hnone)
    · rw [ports b hba] at hnone
      rw [number b hba]
      exact h.absent b hnone
  balanced := by
    intro b p hp
    by_cases hba : b = a
    · exact hba ▸ balanced p (hba ▸ hp)
    · rw [ports b hba] at hp
      have hlisted : s'.listed b p = s.listed b p := by
        simp only [listed, others p.handle b hba]
      rw [number b hba, hlisted]
      exact h.balanced b p hp

/-- A port keeps its handle to itself. -/
theorem Sound.distinct_at (h : s.Sound) (hp : s.ports.get? a = some p)
    (hhandle : p'.handle = p.handle) (hopen : p'.iocpOpen = true → p.iocpOpen = true) :
    p'.iocpOpen = true → ∀ b q, b ≠ a → s.ports.get? b = some q →
      q.iocpOpen = true → q.handle ≠ p'.handle := by
  intro hopen' b q hb hq hqopen hsame
  exact hb (h.distinct b a q p hq hp hqopen (hopen hopen') (hsame.trans hhandle))

theorem Sound.tree_at (h : s.Sound) (hp : s.ports.get? a = some p) {k : Nat}
    (hk : s.tree k = some a) : p.handle = k := by
  obtain ⟨q, hq, hkey⟩ := h.tree k a hk
  rwa [Option.some.inj (hp.symm.trans hq)]

theorem number_lt (hthreads : Fintype.card ι < 0x0fffffff) (s : Handles ι) (a : Nat) (r : Role) :
    s.number a r < 0x0fffffff :=
  (tally_le_card _ _).trans_lt hthreads

/-- A port in the tree has no owner. -/
theorem Sound.not_owner (h : s.Sound) (hp : s.ports.get? a = some p)
    (htree : s.tree p.handle = some a) (i : ι) : ¬ s.Owner a i := by
  rintro ⟨r, howns, hi⟩
  have hpos := number_pos hi
  have howner := (h.balanced a p hp).owner
  have hlisted : s.listed a p = 1 := if_pos htree
  cases r <;> simp only [Role.owns, Bool.false_eq_true] at howns <;> omega

theorem Sound.owner_unique (h : s.Sound) (hi : s.Owner a i) (hj : s.Owner a j) : i = j := by
  obtain ⟨r, hr, hi⟩ := hi
  obtain ⟨r', hr', hj⟩ := hj
  obtain ⟨p, _, hbalanced⟩ := h.exists_port hi
  have howner := hbalanced.owner
  by_contra hne
  by_cases hsame : r = r'
  · subst hsame
    have htwo : 2 ≤ s.number a r := two_le_tally hne (by simp [hi]) (by simp [hj])
    cases r <;> simp only [Role.owns, Bool.false_eq_true] at hr <;> omega
  · have hpos := number_pos hi
    have hpos' := number_pos hj
    cases r <;> simp only [Role.owns, Bool.false_eq_true] at hr <;> cases r' <;>
      simp only [Role.owns, Bool.false_eq_true] at hr' <;> first | exact hsame rfl | omega

/-- A port that is not in the tree has one owner. -/
theorem Sound.existsUnique_owner (h : s.Sound) (hp : s.ports.get? a = some p)
    (htree : s.tree p.handle ≠ some a) : ∃! i, s.Owner a i := by
  have howner := (h.balanced a p hp).owner
  have hlisted : s.listed a p = 0 := if_neg htree
  have hrole : ∃ r : Role, r.owns = true ∧ 0 < s.number a r := by
    by_contra hnone
    have hzero : ∀ r : Role, r.owns = true → s.number a r = 0 := by
      intro r hr
      by_contra hpos
      exact hnone ⟨r, hr, Nat.pos_of_ne_zero hpos⟩
    have hcreating := hzero .creating rfl
    have hremoving := hzero .removing rfl
    have hclosing := hzero .closing rfl
    have hawaiting := hzero .awaiting rfl
    have hpoisoning := hzero .poisoning rfl
    have hdeleting := hzero .deleting rfl
    omega
  obtain ⟨r, hr, hpos⟩ := hrole
  obtain ⟨i, hi⟩ := exists_of_number_pos hpos
  exact ⟨i, ⟨r, hr, hi⟩, fun j hj => h.owner_unique hj ⟨r, hr, hi⟩⟩

/-- A thread that waits for the others will be woken: one of them is still in the port, or
about to signal. -/
theorem Sound.awaited (h : s.Sound) (hi : s.phases i = .busy .awaiting a) :
    (∃ j, s.phases j = .busy .using a) ∨ ∃ j, s.phases j = .busy .signalling a := by
  obtain ⟨p, _, hbalanced⟩ := h.exists_port hi
  have hpos := number_pos hi
  have howner := hbalanced.owner
  have hsignalled := hbalanced.signalled
  by_cases husing : 0 < s.number a .using
  · exact Or.inl (exists_of_number_pos husing)
  · exact Or.inr (exists_of_number_pos (by omega))

/-- A thread that signals meets the one that waits. -/
theorem Sound.existsUnique_awaiting (h : s.Sound) (hi : s.phases i = .busy .signalling a) :
    ∃! j, s.phases j = .busy .awaiting a := by
  obtain ⟨p, _, hbalanced⟩ := h.exists_port hi
  have hpos := number_pos hi
  have hunsignalled := hbalanced.unsignalled
  obtain ⟨j, hj⟩ := exists_of_number_pos (show 0 < s.number a .awaiting by omega)
  exact ⟨j, hj, fun k hk => h.owner_unique ⟨_, rfl, hk⟩ ⟨_, rfl, hj⟩⟩

variable [DecidableEq ι]

theorem moved_goto (s : Handles ι) (i : ι) (phase : Phase) (a : Nat) :
    Moved (s.number a) ((s.goto i phase).number a) ((s.phases i).roleAt a) (phase.roleAt a) := by
  have hone : ∀ (phase : Phase) (r : Role),
      (decide (phase = .busy r a)).toNat = one (phase.roleAt a) r := by
    intro phase r
    cases phase with
    | idle => rfl
    | busy r' b =>
        by_cases hb : b = a
        · by_cases hr : r' = r <;> simp [one, Phase.roleAt, hb, hr]
        · simp [one, Phase.roleAt, hb]
  intro r
  rw [← hone, ← hone]
  exact tally_update _ s.phases i phase

theorem number_goto_of_within (hfrom : (s.phases i).Within a) (hto : phase.Within a) (hb : b ≠ a) :
    (s.goto i phase).number b = s.number b := by
  have hmoved := moved_goto s i phase b
  rw [hfrom b hb, hto b hb] at hmoved
  exact hmoved.same

/-- A step writes the port at an address, and the tree at its handle. -/
theorem Sound.of_write {q : PortState} (h : s.Sound) (whole : s'.broken = false)
    (phases : s'.phases = (s.goto i phase).phases) (hfrom : (s.phases i).Within a)
    (hto : phase.Within a)
    (ports : ∀ b, s'.ports.get? b = if b = a then some q else s.ports.get? b)
    (others : ∀ k b, b ≠ a → (s'.tree k = some b ↔ s.tree k = some b))
    (tree : ∀ k, s'.tree k = some a → q.handle = k)
    (distinct : q.iocpOpen = true → ∀ b x, b ≠ a → s.ports.get? b = some x →
      x.iocpOpen = true → x.handle ≠ q.handle)
    (balanced : Balanced ((s.goto i phase).number a) q.reflock q.iocpOpen.toNat
      (s'.listed a q)) : s'.Sound := by
  have hnumber : s'.number = (s.goto i phase).number := by
    funext b r
    simp only [number, phases]
  have hself : s'.ports.get? a = some q := (ports a).trans (if_pos rfl)
  have honly : ∀ x, s'.ports.get? a = some x → x = q := fun x hx =>
    Option.some.inj (hx.symm.trans hself)
  apply h.of_local whole
  case number =>
    intro b hb
    rw [hnumber]
    exact number_goto_of_within hfrom hto hb
  case ports => exact fun b hb => (ports b).trans (if_neg hb)
  case others => exact others
  case tree => exact fun k hk => ⟨q, hself, tree k hk⟩
  case distinct =>
    intro x hx
    exact honly x hx ▸ distinct
  case absent =>
    intro hnone
    cases hself.symm.trans hnone
  case balanced =>
    intro x hx
    rw [honly x hx, hnumber]
    exact balanced

/-- An operation on a port keeps the handles sound where it keeps the port balanced. -/
theorem Sound.access (h : s.Sound) {f : PortState → Option (PortState × Phase)}
    (hp : s.ports.get? a = some p) (hf : f p = some (p', phase)) (hfrom : (s.phases i).Within a)
    (hto : phase.Within a) (hhandle : p'.handle = p.handle)
    (hopen : p'.iocpOpen = true → p.iocpOpen = true)
    (balanced : Balanced ((s.goto i phase).number a) p'.reflock p'.iocpOpen.toNat
      (s.listed a p)) : (s.access i a f).Sound := by
  have heq : s.access i a f = (s.writePort a p').goto i phase := by
    simp only [Handles.access, hp, Option.bind_some, hf]
  have hwhole : ((s.writePort a p').goto i phase).broken = false := h.whole
  rw [heq]
  apply h.of_write hwhole rfl hfrom hto
  case ports => exact fun b => Heap.get?_write _ _ _ _
  case others => exact fun _ _ _ => Iff.rfl
  case tree => exact fun k hk => hhandle.trans (h.tree_at hp hk)
  case distinct => exact h.distinct_at hp hhandle hopen
  case balanced =>
    simp only [listed, hhandle]
    exact balanced

/-- The thread that calls moves, as its roles at the port tell. -/
theorem moved_of_busy (hi : s.phases i = .busy r a) (phase : Phase) :
    Moved (s.number a) ((s.goto i phase).number a) (some r) (phase.roleAt a) := by
  have hmoved := moved_goto s i phase a
  rwa [hi, roleAt_self] at hmoved

theorem moved_of_idle (hi : s.phases i = .idle) (phase : Phase) (a : Nat) :
    Moved (s.number a) ((s.goto i phase).number a) none (phase.roleAt a) := by
  have hmoved := moved_goto s i phase a
  rwa [hi] at hmoved

theorem Sound.create (h : s.Sound) (hi : s.phases i = .idle) (hnone : s.ports.get? a = none)
    {k : Nat} (hk : s.opened k = 0) :
    ((s.writePort a ⟨k, true, 0⟩).goto i (.busy .creating a)).Sound := by
  have hmoved := moved_of_idle hi (.busy .creating a) a
  rw [roleAt_self] at hmoved
  have htree : ∀ k, s.tree k ≠ some a := by
    intro k hk
    obtain ⟨p, hp, _⟩ := h.tree k a hk
    cases hnone.symm.trans hp
  have hwhole : ((s.writePort a ⟨k, true, 0⟩).goto i (.busy .creating a)).broken = false := h.whole
  apply h.of_write hwhole rfl (hi ▸ within_idle a) (within_busy _ a)
  case ports => exact fun b => Heap.get?_write _ _ _ _
  case others => exact fun _ _ _ => Iff.rfl
  case tree => exact fun k' hk' => absurd hk' (htree k')
  case distinct =>
    intro _ b q hb hq hopen hsame
    have hcount := Heap.count_eq_free_add s.ports b fun p => p.iocpOpen && p.handle = k
    have hzero : s.ports.count (fun p => p.iocpOpen && p.handle = k) = 0 := hk
    rw [hzero, hq] at hcount
    simp [Heap.weight, hopen, show q.handle = k from hsame] at hcount
  case balanced =>
    have hlisted : s.listed a ⟨k, true, 0⟩ = 0 := if_neg (htree k)
    have hbalanced := Balanced.create (h.absent a hnone) hmoved
    exact hlisted.symm ▸ hbalanced

/-- `ts_tree_add` finds no port under the handle. -/
theorem Sound.treeAdd (h : s.Sound) (hi : s.phases i = .busy .creating a) :
    (s.treeAdd i a).Sound := by
  obtain ⟨p, hp, hbalanced⟩ := h.exists_port hi
  have hpos := number_pos hi
  have howner := hbalanced.owner
  have hopened := hbalanced.iocpOpen
  have hunlisted : s.listed a p = 0 := by omega
  have hopen : p.iocpOpen = true := by
    by_contra hclosed
    rw [Bool.eq_false_of_not_eq_true hclosed, Bool.toNat_false] at hopened
    omega
  have hfree : s.tree p.handle = none := by
    cases htree : s.tree p.handle with
    | none => rfl
    | some b =>
        obtain ⟨q, hq, hkey, hqopen, hqlisted⟩ := h.opened_of_tree htree
        obtain rfl := h.distinct b a q p hq hp hqopen hopen hkey
        obtain rfl := Option.some.inj (hp.symm.trans hq)
        rw [hunlisted] at hqlisted
        cases hqlisted
  have heq : s.treeAdd i a = (s.setTree p.handle (some a)).goto i .idle := by
    simp [Handles.treeAdd, hp, hfree]
  have hwhole : ((s.setTree p.handle (some a)).goto i .idle).broken = false := h.whole
  have htree : ∀ k, ((s.setTree p.handle (some a)).goto i .idle).tree k =
      if k = p.handle then some a else s.tree k := fun k => Function.update_apply _ _ _ _
  rw [heq]
  apply h.of_write (q := p) hwhole rfl (hi ▸ within_busy _ a) (within_idle a)
  case ports =>
    intro b
    by_cases hb : b = a
    · rw [if_pos hb, hb]
      exact hp
    · rw [if_neg hb]
      rfl
  case others =>
    intro k b hb
    rw [htree]
    by_cases hk : k = p.handle
    · simp [hk, hfree, Ne.symm hb]
    · rw [if_neg hk]
  case tree =>
    intro k hk
    rw [htree] at hk
    by_cases hkey : k = p.handle
    · exact hkey.symm
    · rw [if_neg hkey] at hk
      exact h.tree_at hp hk
  case distinct => exact h.distinct_at hp rfl id
  case balanced =>
    have hlisted : ((s.setTree p.handle (some a)).goto i .idle).listed a p = 1 :=
      if_pos ((htree _).trans (if_pos rfl))
    rw [hlisted]
    rw [hunlisted] at hbalanced
    exact hbalanced.add (moved_of_busy hi .idle)

theorem Sound.locate (h : s.Sound) (hi : s.phases i = .idle) {k : Nat} (hk : s.tree k = some a) :
    (s.goto i (.busy .locating a)).Sound := by
  obtain ⟨p, hp, _, _, hlisted⟩ := h.opened_of_tree hk
  have hmoved := moved_of_idle hi (.busy .locating a) a
  rw [roleAt_self] at hmoved
  have hbalanced := h.balanced a p hp
  have hwhole : (s.goto i (.busy .locating a)).broken = false := h.whole
  apply h.of_write (q := p) hwhole rfl (hi ▸ within_idle a) (within_busy _ a)
  case ports =>
    intro b
    by_cases hb : b = a
    · rw [if_pos hb, hb]
      exact hp
    · rw [if_neg hb]
      rfl
  case others => exact fun _ _ _ => Iff.rfl
  case tree => exact fun k' hk' => h.tree_at hp hk'
  case distinct => exact h.distinct_at hp rfl id
  case balanced =>
    change Balanced _ _ _ (s.listed a p)
    rw [hlisted] at hbalanced ⊢
    exact hbalanced.locate hmoved

/-- A thread in a role does something to the reference counter. -/
theorem Sound.onReflock (h : s.Sound) (hi : s.phases i = .busy r a)
    (hp : s.ports.get? a = some p) {op : Nat → Option Nat} {next : Nat → Phase} {state : Nat}
    (hop : op p.reflock = some state) (hto : (next state).Within a)
    (balanced : Balanced ((s.goto i (next state)).number a) state p.iocpOpen.toNat
      (s.listed a p)) : (s.access i a (Handles.onReflock op next)).Sound := by
  have hf : Handles.onReflock op next p = some ({ p with reflock := state }, next state) := by
    rw [Handles.onReflock, hop]
    rfl
  exact h.access hp hf (hi ▸ within_busy r a) hto rfl id balanced

theorem Sound.ref (h : s.Sound) (hthreads : Fintype.card ι < 0x0fffffff)
    (hi : s.phases i = .busy .locating a) :
    (s.access i a (Handles.onReflock reflockRef fun _ => .busy .using a)).Sound := by
  obtain ⟨p, hp, hbalanced⟩ := h.exists_port hi
  have hmoved := moved_of_busy hi (.busy .using a)
  rw [roleAt_self] at hmoved
  obtain ⟨hstate, hbalanced⟩ := hbalanced.ref hmoved
  have hop := reflockRef_eq (hstate ▸ number_lt hthreads s a .using)
  exact h.onReflock hi hp hop (within_busy _ a) hbalanced

theorem Sound.use (h : s.Sound) (hi : s.phases i = .busy .using a) :
    (s.access i a fun p => some (p, .busy .using a)).Sound := by
  obtain ⟨p, hp, hbalanced⟩ := h.exists_port hi
  have hmoved := moved_of_busy hi (.busy .using a)
  rw [roleAt_self] at hmoved
  apply h.access hp rfl (hi ▸ within_busy _ a) (within_busy _ a) rfl id
  rw [hmoved.same]
  exact hbalanced

theorem within_afterUnref (a state : Nat) : (afterUnref a state).Within a := by
  unfold afterUnref
  split
  · exact within_busy _ a
  · exact within_idle a

theorem roleAt_afterUnref (a state : Nat) : (afterUnref a state).roleAt a =
    if state = REFLOCK_DESTROY then some .signalling else none := by
  unfold afterUnref
  split
  · exact roleAt_self _ a
  · rfl

theorem Sound.unref (h : s.Sound) (hthreads : Fintype.card ι < 0x0fffffff)
    (hi : s.phases i = .busy .using a) :
    (s.access i a (Handles.onReflock reflockUnref (afterUnref a))).Sound := by
  obtain ⟨p, hp, hbalanced⟩ := h.exists_port hi
  have hmoved := moved_of_busy hi (afterUnref a (p.reflock - 1))
  rw [roleAt_afterUnref] at hmoved
  obtain ⟨hpos, hle, hbalanced⟩ := hbalanced.unref hmoved (number_lt hthreads s a .using)
  exact h.onReflock hi hp (reflockUnref_eq hpos hle) (within_afterUnref a _) hbalanced

theorem Sound.close (h : s.Sound) (hi : s.phases i = .busy .removing a) :
    (s.access i a fun p => some ({ p with iocpOpen := false }, .busy .closing a)).Sound := by
  obtain ⟨p, hp, hbalanced⟩ := h.exists_port hi
  have hmoved := moved_of_busy hi (.busy .closing a)
  rw [roleAt_self] at hmoved
  exact h.access hp rfl (hi ▸ within_busy _ a) (within_busy _ a) rfl (fun h => nomatch h)
    (hbalanced.close hmoved)

theorem Sound.destroy (h : s.Sound) (hthreads : Fintype.card ι < 0x0fffffff)
    (hi : s.phases i = .busy .closing a) :
    (s.access i a (Handles.onReflock reflockUnrefAndDestroy (afterDestroy a))).Sound := by
  obtain ⟨p, hp, hbalanced⟩ := h.exists_port hi
  -- the count is small before the phase is known
  have hcounter : p.reflock ≤ 0x0fffffff := by
    have howner := hbalanced.owner
    have hcounter := hbalanced.counter
    have hpos := number_pos hi
    have hlt := number_lt hthreads s a .using
    omega
  have hphase : afterDestroy a (REFLOCK_DESTROY + (p.reflock - 1)) =
      if p.reflock - 1 ≠ 0 then .busy .awaiting a else .busy .poisoning a := by
    rw [afterDestroy, and_refMask (by omega)]
  have hwithin : (afterDestroy a (REFLOCK_DESTROY + (p.reflock - 1))).Within a := by
    rw [hphase]
    split <;> exact within_busy _ a
  have hmoved := moved_of_busy hi (afterDestroy a (REFLOCK_DESTROY + (p.reflock - 1)))
  have hrole : (afterDestroy a (REFLOCK_DESTROY + (p.reflock - 1))).roleAt a =
      if p.reflock - 1 ≠ 0 then some .awaiting else some .poisoning := by
    rw [hphase]
    split <;> exact roleAt_self _ a
  rw [hrole] at hmoved
  obtain ⟨hpos, _, hbalanced⟩ := hbalanced.destroy hmoved
  exact h.onReflock hi hp (reflockUnrefAndDestroy_eq hpos hcounter) hwithin hbalanced

theorem Sound.poison (h : s.Sound) (hi : s.phases i = .busy .poisoning a) :
    (s.access i a (Handles.onReflock reflockPoison fun _ => .busy .deleting a)).Sound := by
  obtain ⟨p, hp, hbalanced⟩ := h.exists_port hi
  have hmoved := moved_of_busy hi (.busy .deleting a)
  rw [roleAt_self] at hmoved
  obtain ⟨hstate, hbalanced⟩ := hbalanced.poison hmoved REFLOCK_POISON
  have hop : reflockPoison p.reflock = some REFLOCK_POISON := if_pos hstate
  exact h.onReflock hi hp hop (within_busy _ a) hbalanced

/-- Nobody has found the port without being counted when it leaves the tree. -/
theorem Sound.treeDelAndRef (h : s.Sound) (hthreads : Fintype.card ι < 0x0fffffff)
    (hi : s.phases i = .idle) (hunlocked : s.Unlocked) {k : Nat} (hk : s.tree k = some a) :
    (s.treeDelAndRef i k a).Sound := by
  obtain ⟨p, hp, hkey, _, hlisted⟩ := h.opened_of_tree hk
  have hlocating : s.number a .locating = 0 := by
    apply tally_eq_zero_iff.mpr
    intro j
    apply decide_eq_false
    intro hj
    have hshares := hunlocked j
    rw [hj] at hshares
    cases hshares
  have hmoved := moved_of_idle hi (.busy .removing a) a
  rw [roleAt_self] at hmoved
  have hbalanced := h.balanced a p hp
  rw [hlisted] at hbalanced
  obtain ⟨hstate, hbalanced⟩ := hbalanced.remove hmoved hlocating
  have hop := reflockRef_eq (hstate ▸ number_lt hthreads s a .using)
  have heq : s.treeDelAndRef i k a =
      ((s.setTree k none).writePort a { p with reflock := p.reflock + 1 }).goto i
        (.busy .removing a) := by
    have hp' : (s.setTree k none).ports.get? a = some p := hp
    simp only [Handles.treeDelAndRef, Handles.access, hp', Option.bind_some,
      Handles.onReflock, hop, Option.map_some]
  have hwhole : (s.treeDelAndRef i k a).broken = false := by
    rw [heq]
    exact h.whole
  have htree : ∀ k', (s.treeDelAndRef i k a).tree k' = if k' = k then none else s.tree k' := by
    intro k'
    rw [heq]
    exact Function.update_apply _ _ _ _
  apply h.of_write (q := { p with reflock := p.reflock + 1 }) hwhole (by rw [heq]; rfl)
    (hi ▸ within_idle a) (within_busy _ a)
  case ports =>
    intro b
    rw [heq]
    exact Heap.get?_write _ _ _ _
  case others =>
    intro k' b hb
    rw [htree]
    by_cases hk' : k' = k
    · simp [hk', hk, Ne.symm hb]
    · rw [if_neg hk']
  case tree =>
    intro k' hk'
    rw [htree] at hk'
    by_cases hkey' : k' = k
    · rw [if_pos hkey'] at hk'
      cases hk'
    · rw [if_neg hkey'] at hk'
      exact h.tree_at hp hk'
  case distinct => exact h.distinct_at hp rfl id
  case balanced =>
    have hunlisted : (s.treeDelAndRef i k a).listed a { p with reflock := p.reflock + 1 } = 0 := by
      apply if_neg
      rw [htree, if_pos hkey]
      exact nofun
    rw [hunlisted]
    exact hbalanced

/-- The last thread that leaves the port wakes the one that waits for it. -/
theorem Sound.signal (h : s.Sound) (hi : s.phases i = .busy .signalling a)
    (hj : s.phases j = .busy .awaiting a) :
    ((s.goto i .idle).goto j (.busy .poisoning a)).Sound := by
  obtain ⟨p, hp, hbalanced⟩ := h.exists_port hi
  have hne : j ≠ i := by
    rintro rfl
    cases hi.symm.trans hj
  have hj' : (s.goto i .idle).phases j = .busy .awaiting a :=
    (Function.update_of_ne hne _ _).trans hj
  have hmoved' := moved_of_busy hj' (.busy .poisoning a)
  rw [roleAt_self] at hmoved'
  have hwhole : ((s.goto i .idle).goto j (.busy .poisoning a)).broken = false := h.whole
  apply h.of_local (a := a) hwhole
  case number =>
    intro b hb
    exact (number_goto_of_within (hj' ▸ within_busy _ a) (within_busy _ a) hb).trans
      (number_goto_of_within (hi ▸ within_busy _ a) (within_idle a) hb)
  case ports => exact fun _ _ => rfl
  case others => exact fun _ _ _ => Iff.rfl
  case tree => exact fun k hk => h.tree k a hk
  case distinct =>
    intro q hq
    exact h.distinct_at hq rfl id
  case absent =>
    intro hnone
    cases hp.symm.trans hnone
  case balanced =>
    intro q hq
    obtain rfl := Option.some.inj (hp.symm.trans hq)
    exact hbalanced.signal (moved_of_busy hi .idle) hmoved'

/-- `port_delete` frees a port that nobody is with any more. -/
theorem Sound.portDelete (h : s.Sound) (hi : s.phases i = .busy .deleting a) :
    (s.portDelete i a).Sound := by
  obtain ⟨p, hp, hbalanced⟩ := h.exists_port hi
  obtain ⟨hclosed, hunlisted, hzero⟩ := hbalanced.delete (moved_of_busy hi .idle)
  have heq : s.portDelete i a = (s.freePort a).goto i .idle := by
    simp [Handles.portDelete, hp, Bool.toNat_eq_zero.mp hclosed]
  have hwhole : ((s.freePort a).goto i .idle).broken = false := h.whole
  have hfree : ((s.freePort a).goto i .idle).ports.get? a = none := Heap.get?_free_self _ _
  rw [heq]
  apply h.of_local (a := a) hwhole
  case number =>
    exact fun b hb => number_goto_of_within (hi ▸ within_busy _ a) (within_idle a) hb
  case ports => exact fun b hb => Heap.get?_free_of_ne _ hb
  case others => exact fun _ _ _ => Iff.rfl
  case tree =>
    intro k hk
    have hlisted : s.listed a p = 1 := if_pos (h.tree_at hp hk ▸ hk)
    omega
  case distinct =>
    intro q hq
    cases hfree.symm.trans hq
  case absent => exact fun _ => hzero
  case balanced =>
    intro q hq
    cases hfree.symm.trans hq

omit [Fintype ι] [DecidableEq ι] in
theorem inRole_eq {f : Nat → Handles ι} (h : s.inRole i r f = some s') :
    ∃ a, s.phases i = .busy r a ∧ f a = s' := by
  unfold inRole at h
  split at h
  · cases h
  · rename_i r' a hi
    split at h
    · rename_i hr
      exact ⟨a, hr ▸ hi, Option.some.inj h⟩
    · cases h

omit [Fintype ι] [DecidableEq ι] in
theorem found_eq {k : Nat} {f : Nat → Handles ι} (h : s.found i k f = some s') :
    s.phases i = .idle ∧ (s = s' ∨ ∃ a, s.tree k = some a ∧ f a = s') := by
  unfold found at h
  split at h
  · rename_i hi
    split at h
    · exact ⟨hi, Or.inl (Option.some.inj h)⟩
    · rename_i a hk
      exact ⟨hi, Or.inr ⟨a, hk, Option.some.inj h⟩⟩
  · cases h

omit [Fintype ι] in
theorem signal_eq (h : s.signal i j = some s') :
    ∃ a, s.phases i = .busy .signalling a ∧ s.phases j = .busy .awaiting a ∧
      (s.goto i .idle).goto j (.busy .poisoning a) = s' := by
  unfold signal at h
  split at h
  · rename_i a b hi hj
    split at h
    · rename_i hab
      exact ⟨b, hab ▸ hi, hj, Option.some.inj h⟩
    · cases h
  · cases h

theorem Sound.step (h : s.Sound) (hthreads : Fintype.card ι < 0x0fffffff) {action : Action ι}
    (hstep : s.step action = some s') : s'.Sound := by
  cases action with
  | create i a k =>
      obtain ⟨⟨hi, hnone, hk⟩, heq⟩ := Option.ite_none_right_eq_some.mp hstep
      exact Option.some.inj heq ▸ h.create hi hnone hk
  | add i =>
      obtain ⟨_, hrole⟩ := Option.ite_none_right_eq_some.mp hstep
      obtain ⟨a, hi, rfl⟩ := inRole_eq hrole
      exact h.treeAdd hi
  | lookup i k =>
      obtain ⟨hi, rfl | ⟨a, hk, rfl⟩⟩ := found_eq hstep
      · exact h
      · exact h.locate hi hk
  | ref i =>
      obtain ⟨a, hi, rfl⟩ := inRole_eq hstep
      exact h.ref hthreads hi
  | use i =>
      obtain ⟨a, hi, rfl⟩ := inRole_eq hstep
      exact h.use hi
  | unref i =>
      obtain ⟨a, hi, rfl⟩ := inRole_eq hstep
      exact h.unref hthreads hi
  | remove i k =>
      obtain ⟨hunlocked, hfound⟩ := Option.ite_none_right_eq_some.mp hstep
      obtain ⟨hi, rfl | ⟨a, hk, rfl⟩⟩ := found_eq hfound
      · exact h
      · exact h.treeDelAndRef hthreads hi hunlocked hk
  | close i =>
      obtain ⟨a, hi, rfl⟩ := inRole_eq hstep
      exact h.close hi
  | destroy i =>
      obtain ⟨a, hi, rfl⟩ := inRole_eq hstep
      exact h.destroy hthreads hi
  | signal i j =>
      obtain ⟨a, hi, hj, rfl⟩ := signal_eq hstep
      exact h.signal hi hj
  | poison i =>
      obtain ⟨a, hi, rfl⟩ := inRole_eq hstep
      exact h.poison hi
  | delete i =>
      obtain ⟨a, hi, rfl⟩ := inRole_eq hstep
      exact h.portDelete hi

/-- There are fewer threads than the counter can count. Whatever they do in whatever order,
no call through the handle meets a port that was freed, no assertion of `reflock` nor the
one about `iocp_handle` fails, and no handle is added twice. A port is in the tree, or one
thread is about to add or to free it. The thread that closes a port is woken by exactly one
of those that were in it. -/
theorem port_kept_while_used (hthreads : Fintype.card ι < 0x0fffffff) {actions : List (Action ι)}
    (run : Run Handles.step anyStep init actions s) :
    s.broken = false ∧
      (∀ i r a, s.phases i = .busy r a → ∃ p, s.ports.get? a = some p) ∧
      (∀ a p, s.ports.get? a = some p →
        (s.tree p.handle = some a ∧ ∀ i, ¬ s.Owner a i) ∨
        (s.tree p.handle ≠ some a ∧ ∃! i, s.Owner a i)) ∧
      (∀ i a, s.phases i = .busy .awaiting a →
        (∃ j, s.phases j = .busy .using a) ∨ ∃ j, s.phases j = .busy .signalling a) ∧
      ∀ i a, s.phases i = .busy .signalling a → ∃! j, s.phases j = .busy .awaiting a := by
  have hsound : s.Sound := by
    apply run.invariant (P := Sound) _ sound_init
    intro s action s' _ hstep h
    exact h.step hthreads hstep
  refine ⟨hsound.whole, ?_, ?_, fun i a hi => hsound.awaited hi,
    fun i a hi => hsound.existsUnique_awaiting hi⟩
  · intro i r a hi
    obtain ⟨p, hp, _⟩ := hsound.exists_port hi
    exact ⟨p, hp⟩
  · intro a p hp
    by_cases htree : s.tree p.handle = some a
    · exact Or.inl ⟨htree, hsound.not_owner hp htree⟩
    · exact Or.inr ⟨htree, hsound.existsUnique_owner hp htree⟩

/-- Thread 1 is in a port that thread 0 closes. Thread 2 no longer finds the handle, and
gets another port with the same handle, while thread 0 waits. Thread 1 wakes it. -/
def closedWhileUsed : List (Action (Fin 3)) :=
  [.create 0 100 7, .add 0, .lookup 1 7, .ref 1, .remove 0 7, .close 0, .destroy 0, .lookup 2 7,
    .create 2 200 7, .add 2, .use 1, .unref 1, .signal 1 0, .poison 0, .delete 0]

theorem port_kept_while_used_closed :
    ∃ s, Run Handles.step anyStep (init : Handles (Fin 3)) closedWhileUsed s ∧
      s.broken = false := by
  obtain ⟨s, hs⟩ := Option.isSome_iff_exists.mp
    (show (exec Handles.step (init : Handles (Fin 3)) closedWhileUsed).isSome = true by decide)
  have run : Run Handles.step anyStep init closedWhileUsed s := run_of_exec hs fun _ _ _ => trivial
  exact ⟨s, run, (port_kept_while_used (by decide) run).1⟩

end Handles

end Lifetime

end FFZKit.Win32.EpollHandle

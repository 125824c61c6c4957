import FFZKit.Win32.WepollGroup

/-!
# The life of a `sock_state_t`

An address holds no `sock_state_t`, or one that is registered in the tree, or one
that was removed and waits for the packet of its poll. A poll is outstanding for
it exactly when its status says so, and there is never more than one. So every
packet finds its `sock_state_t`, and so does the driver when it writes into it.

A registered socket is covered when its poll asks for all the events of the user,
or was cancelled, since then its packet brings a new poll. One that is not
covered is on the update queue.
-/

namespace FFZKit.Win32.Wepoll

open FFZKit.Foundations

def SockState.Covered (c : SockState) : Prop :=
  c.pollStatus = .cancelled ∨
    (c.pollStatus = .pending ∧ c.userEvents &&& knownEpollEvents &&& ~~~c.pendingEvents = 0)

/-- A poll that was not cancelled asks the driver for the pending events. -/
def SockState.Asks (c : SockState) : Prop :=
  c.pollStatus = .pending → c.afdEvents = epollEventsToAfdEvents c.pendingEvents

/-- The members of the group at an address. -/
def load (socks : Heap SockState) (x : Nat) : Nat := socks.count fun c => c.pollGroup = x

namespace Port

variable {p p' : Port} {packets packets' : List Nat} {a b : Nat} {c c' : SockState}

/-- What an address is used for. `packets` are those that are not fed yet. -/
inductive Fits (p : Port) (packets : List Nat) (a : Nat) : Prop
  | absent (sock : p.socks.get? a = none) (busy : a ∉ p.submitted ++ packets)
      (tree : ∀ k, (k, a) ∉ p.sockTree) (updating : a ∉ p.sockUpdateQueue)
      (deleted : a ∉ p.sockDeletedQueue)
  | live (c : SockState) (sock : p.socks.get? a = some c) (kept : c.deletePending = false)
      (busy : a ∈ p.submitted ++ packets ↔ c.pollStatus ≠ .idle)
      (tree : ∀ k, (k, a) ∈ p.sockTree ↔ k = c.key) (deleted : a ∉ p.sockDeletedQueue)
      (asks : a ∈ p.submitted → c.Asks)
  | dying (c : SockState) (sock : p.socks.get? a = some c) (removed : c.deletePending = true)
      (busy : a ∈ p.submitted ++ packets) (waiting : c.pollStatus ≠ .idle)
      (tree : ∀ k, (k, a) ∉ p.sockTree) (updating : a ∉ p.sockUpdateQueue)
      (deleted : a ∈ p.sockDeletedQueue)

/-- The port uses every address in one of these ways, and no node is linked twice. -/
structure Sound (p : Port) (packets : List Nat) : Prop where
  outstanding : (p.submitted ++ packets).Nodup
  keys : (p.sockTree.map Prod.fst).Nodup
  updating : p.sockUpdateQueue.Nodup
  deleted : p.sockDeletedQueue.Nodup
  groups : Groups (load p.socks) p.pollGroupQueue
  fits : ∀ a, Fits p packets a

/-- Every registered socket but perhaps one is covered or on the update queue. -/
def CoversBut (x : Option Nat) (p : Port) : Prop :=
  ∀ a c, x ≠ some a → p.socks.get? a = some c → c.deletePending = false →
    c.Covered ∨ a ∈ p.sockUpdateQueue

theorem sound_init : Sound init [] where
  outstanding := List.nodup_nil
  keys := List.nodup_nil
  updating := List.nodup_nil
  deleted := List.nodup_nil
  groups := groups_nil
  fits := fun a => .absent rfl (by simp [init]) (by simp [init]) (by simp [init]) (by simp [init])

theorem coversBut_init (x : Option Nat) : CoversBut x init := by
  intro a c _ hc
  cases hc

/-- An address is used as before. -/
structure SameAt (p : Port) (packets : List Nat) (p' : Port) (packets' : List Nat) (b : Nat) :
    Prop where
  sock : p'.socks.get? b = p.socks.get? b
  submitted : b ∈ p'.submitted ↔ b ∈ p.submitted
  busy : b ∈ p'.submitted ++ packets' ↔ b ∈ p.submitted ++ packets
  tree : ∀ k, (k, b) ∈ p'.sockTree ↔ (k, b) ∈ p.sockTree
  updating : b ∈ p'.sockUpdateQueue ↔ b ∈ p.sockUpdateQueue
  deleted : b ∈ p'.sockDeletedQueue ↔ b ∈ p.sockDeletedQueue

theorem Fits.of_same (h : Fits p packets b) (same : SameAt p packets p' packets' b) :
    Fits p' packets' b := by
  cases h with
  | absent sock busy tree updating deleted =>
      exact .absent (same.sock.trans sock) (same.busy.not.mpr busy)
        (fun k => (same.tree k).not.mpr (tree k)) (same.updating.not.mpr updating)
        (same.deleted.not.mpr deleted)
  | live c sock kept busy tree deleted asks =>
      exact .live c (same.sock.trans sock) kept (same.busy.trans busy)
        (fun k => (same.tree k).trans (tree k)) (same.deleted.not.mpr deleted)
        fun hmem => asks (same.submitted.mp hmem)
  | dying c sock removed busy waiting tree updating deleted =>
      exact .dying c (same.sock.trans sock) removed (same.busy.mpr busy) waiting
        (fun k => (same.tree k).not.mpr (tree k)) (same.updating.not.mpr updating)
        (same.deleted.mpr deleted)

/-- The port is sound after a change at one address that leaves it used in one of the ways. -/
theorem Sound.fits_of_onlyAt (h : Sound p packets)
    (only : ∀ b, b ≠ a → SameAt p packets p' packets' b) (hfits : Fits p' packets' a) :
    ∀ b, Fits p' packets' b := by
  intro b
  by_cases hb : b = a
  · exact hb ▸ hfits
  · exact (h.fits b).of_same (only b hb)

/-- What is known of a registered socket. -/
theorem Sound.live (h : Sound p packets) (hc : p.socks.get? a = some c)
    (hkept : c.deletePending = false) :
    (a ∈ p.submitted ++ packets ↔ c.pollStatus ≠ .idle) ∧
      (∀ k, (k, a) ∈ p.sockTree ↔ k = c.key) ∧ a ∉ p.sockDeletedQueue := by
  cases h.fits a with
  | absent sock => rw [sock] at hc; cases hc
  | live d sock _ busy tree deleted =>
      obtain rfl := Option.some.inj (sock.symm.trans hc)
      exact ⟨busy, tree, deleted⟩
  | dying d sock removed =>
      obtain rfl := Option.some.inj (sock.symm.trans hc)
      rw [hkept] at removed
      cases removed

theorem Sound.asks (h : Sound p packets) (hc : p.socks.get? a = some c)
    (hkept : c.deletePending = false) (hsubmitted : a ∈ p.submitted) : c.Asks := by
  cases h.fits a with
  | absent sock => rw [sock] at hc; cases hc
  | live d sock _ _ _ _ asks =>
      obtain rfl := Option.some.inj (sock.symm.trans hc)
      exact asks hsubmitted
  | dying d sock removed =>
      obtain rfl := Option.some.inj (sock.symm.trans hc)
      rw [hkept] at removed
      cases removed

/-- What is known of a socket that was removed. -/
theorem Sound.dying (h : Sound p packets) (hc : p.socks.get? a = some c)
    (hremoved : c.deletePending = true) :
    a ∈ p.submitted ++ packets ∧ (∀ k, (k, a) ∉ p.sockTree) ∧ a ∉ p.sockUpdateQueue ∧
      a ∈ p.sockDeletedQueue := by
  cases h.fits a with
  | absent sock => rw [sock] at hc; cases hc
  | live d sock kept =>
      obtain rfl := Option.some.inj (sock.symm.trans hc)
      rw [hremoved] at kept
      cases kept
  | dying d sock _ busy _ tree updating deleted => exact ⟨busy, tree, updating, deleted⟩

/-- Whatever is linked, outstanding or registered is allocated. -/
theorem Sound.exists_sock (h : Sound p packets)
    (hused : a ∈ p.submitted ++ packets ∨ a ∈ p.sockUpdateQueue ∨ ∃ k, (k, a) ∈ p.sockTree) :
    ∃ c, p.socks.get? a = some c := by
  cases h.fits a with
  | absent _ busy tree updating =>
      rcases hused with hbusy | hupdating | ⟨k, hk⟩
      · exact absurd hbusy busy
      · exact absurd hupdating updating
      · exact absurd hk (tree k)
  | live c sock => exact ⟨c, sock⟩
  | dying c sock => exact ⟨c, sock⟩

/-- The update queue holds registered sockets. -/
theorem Sound.kept_of_updating (h : Sound p packets) (ha : a ∈ p.sockUpdateQueue) :
    ∃ c, p.socks.get? a = some c ∧ c.deletePending = false := by
  cases h.fits a with
  | absent _ _ _ updating => exact absurd ha updating
  | live c sock kept => exact ⟨c, sock, kept⟩
  | dying _ _ _ _ _ _ updating => exact absurd ha updating

theorem load_write (socks : Heap SockState) (hc : socks.get? a = some c)
    (hgroup : c'.pollGroup = c.pollGroup) (x : Nat) : load (socks.write a c') x = load socks x := by
  have hcount := socks.count_write a c' fun c => c.pollGroup = x
  rw [hc, Heap.weight, hgroup] at hcount
  exact Nat.add_right_cancel hcount

theorem load_free (socks : Heap SockState) (hc : socks.get? a = some c) (x : Nat) :
    load (socks.free a) x + (if x = c.pollGroup then 1 else 0) = load socks x := by
  rw [load, load, ← socks.count_free a, hc, Heap.weight]
  by_cases hx : c.pollGroup = x
  · simp [hx]
  · simp [hx, Ne.symm hx]

theorem load_new (socks : Heap SockState) (hnone : socks.get? a = none) (x : Nat) :
    load (socks.write a c) x = load socks x + if x = c.pollGroup then 1 else 0 := by
  have hcount := socks.count_write a c fun c => c.pollGroup = x
  rw [hnone, Heap.weight, Nat.add_zero] at hcount
  rw [load, hcount, load]
  by_cases hx : c.pollGroup = x
  · simp [hx]
  · simp [hx, Ne.symm hx]

theorem load_pos (socks : Heap SockState) (hc : socks.get? a = some c) :
    0 < load socks c.pollGroup := by
  have hcount := load_free socks hc c.pollGroup
  rw [if_pos rfl] at hcount
  omega

/-- Writing fields other than the key, the group and the two that say whether the
socket was removed and whether a poll is outstanding. -/
theorem Sound.store (h : Sound p packets) (hc : p.socks.get? a = some c)
    (hkey : c'.key = c.key) (hgroup : c'.pollGroup = c.pollGroup)
    (hdelete : c'.deletePending = c.deletePending)
    (hidle : c'.pollStatus = .idle ↔ c.pollStatus = .idle) (hasks : c.Asks → c'.Asks) :
    Sound (p.store a c') packets where
  outstanding := h.outstanding
  keys := h.keys
  updating := h.updating
  deleted := h.deleted
  groups := by
    have heq : load (p.socks.write a c') = load p.socks := funext (load_write p.socks hc hgroup)
    simp only [Port.store]
    rw [heq]
    exact h.groups
  fits := by
    apply h.fits_of_onlyAt (a := a)
    · intro b hb
      exact ⟨Heap.get?_write_of_ne _ hb, Iff.rfl, Iff.rfl, fun _ => Iff.rfl, Iff.rfl, Iff.rfl⟩
    · have hsock : (p.store a c').socks.get? a = some c' := Heap.get?_write_self _ _ _
      cases hd : c.deletePending with
      | false =>
          obtain ⟨busy, tree, deleted⟩ := h.live hc hd
          exact .live c' hsock (hdelete.trans hd) (busy.trans hidle.not.symm)
            (fun k => by rw [hkey]; exact tree k) deleted
            fun hmem => hasks (h.asks hc hd hmem)
      | true =>
          obtain ⟨busy, tree, updating, deleted⟩ := h.dying hc hd
          refine .dying c' hsock (hdelete.trans hd) busy ?_ tree updating deleted
          rw [Ne, hidle]
          cases h.fits a with
          | absent sock => rw [sock] at hc; cases hc
          | live d sock kept =>
              obtain rfl := Option.some.inj (sock.symm.trans hc)
              rw [hd] at kept
              cases kept
          | dying d sock _ _ waiting =>
              obtain rfl := Option.some.inj (sock.symm.trans hc)
              exact waiting

/-- Taking a node out of a queue that it is not in does nothing. -/
theorem cancelSocketUpdate_eq (p : Port) (a : Nat) : p.cancelSocketUpdate a = p.queueRemove a := by
  unfold cancelSocketUpdate
  split
  · rfl
  · rename_i hnot
    simp only [isEnqueued, Bool.or_eq_true, List.contains_eq_mem, decide_eq_true_eq, not_or] at hnot
    rw [queueRemove, List.erase_of_not_mem hnot.1, List.erase_of_not_mem hnot.2]

theorem removeDeletedSocket_eq (p : Port) (a : Nat) :
    p.removeDeletedSocket a = p.queueRemove a :=
  cancelSocketUpdate_eq p a

/-- A registered socket that is asked to be updated is on the queue. -/
theorem requestSocketUpdate_eq (hdeleted : a ∉ p.sockDeletedQueue) :
    p.requestSocketUpdate a = { p with
      sockUpdateQueue :=
        if a ∈ p.sockUpdateQueue then p.sockUpdateQueue else p.sockUpdateQueue ++ [a] } := by
  by_cases hqueue : a ∈ p.sockUpdateQueue
  · simp [requestSocketUpdate, isEnqueued, hqueue]
  · simp [requestSocketUpdate, isEnqueued, hqueue, hdeleted]

theorem Sound.request (h : Sound p packets) (hc : p.socks.get? a = some c)
    (hkept : c.deletePending = false) : Sound (p.requestSocketUpdate a) packets := by
  obtain ⟨busy, tree, deleted⟩ := h.live hc hkept
  rw [requestSocketUpdate_eq deleted]
  by_cases hqueue : a ∈ p.sockUpdateQueue
  · rw [if_pos hqueue]
    exact h
  · rw [if_neg hqueue]
    refine ⟨h.outstanding, h.keys, ?_, h.deleted, h.groups, h.fits_of_onlyAt (a := a) ?_ ?_⟩
    · exact List.nodup_append.mpr ⟨h.updating, List.nodup_singleton a, fun b hb d hd hbd =>
        hqueue (List.mem_singleton.mp hd ▸ hbd ▸ hb)⟩
    · intro b hb
      exact ⟨rfl, Iff.rfl, Iff.rfl, fun _ => Iff.rfl, by simp [hb], Iff.rfl⟩
    · exact .live c hc hkept busy tree deleted (h.asks hc hkept)

theorem CoversBut.request (hcovers : CoversBut (some a) p) (h : Sound p packets)
    (hc : p.socks.get? a = some c) (hkept : c.deletePending = false) :
    CoversBut none (p.requestSocketUpdate a) := by
  rw [requestSocketUpdate_eq (h.live hc hkept).2.2]
  intro b d _ hd hdkept
  by_cases hb : b = a
  · right
    subst hb
    dsimp only
    split
    · assumption
    · simp
  · rcases hcovers b d (by simpa using Ne.symm hb) hd hdkept with hcovered | hqueue
    · exact Or.inl hcovered
    · right
      dsimp only
      split
      · exact hqueue
      · exact List.mem_append_left _ hqueue

/-- A covered socket leaves the update queue. -/
theorem Sound.unqueue (h : Sound p packets) (hc : p.socks.get? a = some c)
    (hkept : c.deletePending = false) : Sound (p.cancelSocketUpdate a) packets := by
  obtain ⟨busy, tree, deleted⟩ := h.live hc hkept
  rw [cancelSocketUpdate_eq]
  refine ⟨h.outstanding, h.keys, h.updating.erase a, h.deleted.erase a, h.groups,
    h.fits_of_onlyAt (a := a) ?_ ?_⟩
  · intro b hb
    exact ⟨rfl, Iff.rfl, Iff.rfl, fun _ => Iff.rfl, List.mem_erase_of_ne hb,
      List.mem_erase_of_ne hb⟩
  · exact .live c hc hkept busy tree (fun hmem => deleted (List.mem_of_mem_erase hmem))
      (h.asks hc hkept)

theorem CoversBut.unqueue (hcovers : CoversBut (some a) p) (hc : p.socks.get? a = some c)
    (hcovered : c.Covered) : CoversBut none (p.cancelSocketUpdate a) := by
  rw [cancelSocketUpdate_eq]
  intro b d _ hd hdkept
  by_cases hb : b = a
  · subst hb
    obtain rfl := Option.some.inj (hc.symm.trans hd)
    exact Or.inl hcovered
  · exact (hcovers b d (by simpa using Ne.symm hb) hd hdkept).imp_right
      (List.mem_erase_of_ne hb).mpr

/-- What `sock__delete` does to a port: the socket is registered no more. -/
structure Removes (p p' : Port) (a key : Nat) : Prop where
  others : ∀ b, b ≠ a → p'.socks.get? b = p.socks.get? b
  here : ∀ c, p'.socks.get? a = some c → c.deletePending = true
  tree : p'.sockTree = p.sockTree.erase (key, a)
  updating : p'.sockUpdateQueue = p.sockUpdateQueue.erase a
  submitted : p'.submitted = p.submitted
  active : p'.activePollCount = p.activePollCount

theorem Removes.covers {key : Nat} (h : Removes p p' a key) (hcovers : CoversBut (some a) p) :
    CoversBut none p' := by
  intro b c _ hc hkept
  by_cases hb : b = a
  · subst hb
    rw [h.here c hc] at hkept
    cases hkept
  · rw [h.others b hb] at hc
    rw [h.updating]
    exact (hcovers b c (by simpa using Ne.symm hb) hc hkept).imp_right (List.mem_erase_of_ne hb).mpr

/-- The `sock_state_t` at an address is freed. -/
def dropped (p : Port) (a key : Nat) (groups : List PollGroup) : Port :=
  { p with
    socks := p.socks.free a
    sockTree := p.sockTree.erase (key, a)
    sockUpdateQueue := p.sockUpdateQueue.erase a
    sockDeletedQueue := p.sockDeletedQueue.erase a
    pollGroupQueue := groups }

/-- It is kept for the packet that is still to come. -/
def condemned (p : Port) (a : Nat) (c : SockState) : Port :=
  { p with
    socks := p.socks.write a c
    sockTree := p.sockTree.erase (c.key, a)
    sockUpdateQueue := p.sockUpdateQueue.erase a
    sockDeletedQueue := p.sockDeletedQueue ++ [a] }

theorem removes_dropped (p : Port) (a key : Nat) (groups : List PollGroup) :
    Removes p (p.dropped a key groups) a key where
  others := fun _ hb => Heap.get?_free_of_ne _ hb
  here := by
    intro c hc
    rw [dropped, Heap.get?_free_self] at hc
    cases hc
  tree := rfl
  updating := rfl
  submitted := rfl
  active := rfl

theorem removes_condemned (p : Port) (a : Nat) (hremoved : c.deletePending = true) :
    Removes p (p.condemned a c) a c.key where
  others := fun _ hb => Heap.get?_write_of_ne _ hb
  here := by
    intro d hd
    rw [condemned, Heap.get?_write_self] at hd
    rw [← Option.some.inj hd, hremoved]
  tree := rfl
  updating := rfl
  submitted := rfl
  active := rfl

/-- A key that is registered once is registered no more when its entry is erased. -/
theorem Sound.not_mem_tree_erase (h : Sound p packets)
    (htree : ∀ k, (k, a) ∈ p.sockTree → k = c.key) (k : Nat) :
    (k, a) ∉ p.sockTree.erase (c.key, a) := by
  intro hmem
  obtain rfl := htree k (List.mem_of_mem_erase hmem)
  exact (List.Nodup.of_map _ h.keys).not_mem_erase hmem

theorem mem_tree_erase {key : Nat} (hb : b ≠ a) (k : Nat) :
    (k, b) ∈ p.sockTree.erase (key, a) ↔ (k, b) ∈ p.sockTree :=
  List.mem_erase_of_ne fun heq => hb (congrArg Prod.snd heq)

/-- Freeing is right when no poll is outstanding, or its packet has just been fed. -/
theorem Sound.drop (h : Sound p packets) (hc : p.socks.get? a = some c)
    {groups : List PollGroup} (hgroups : Groups (load (p.socks.free a)) groups)
    (hnodup : (p.submitted ++ packets').Nodup)
    (hbusy : ∀ b, b ∈ p.submitted ++ packets' ↔ b ∈ p.submitted ++ packets ∧ b ≠ a) :
    Sound (p.dropped a c.key groups) packets' where
  outstanding := hnodup
  keys := h.keys.sublist (List.erase_sublist.map _)
  updating := h.updating.erase a
  deleted := h.deleted.erase a
  groups := hgroups
  fits := by
    apply h.fits_of_onlyAt (a := a)
    · intro b hb
      refine ⟨Heap.get?_free_of_ne _ hb, Iff.rfl, ?_, mem_tree_erase hb, List.mem_erase_of_ne hb,
        List.mem_erase_of_ne hb⟩
      exact (hbusy b).trans (and_iff_left hb)
    · refine .absent (Heap.get?_free_self _ _) (fun hmem => ((hbusy a).mp hmem).2 rfl) ?_
        h.updating.not_mem_erase h.deleted.not_mem_erase
      apply h.not_mem_tree_erase
      intro k hk
      cases hremoved : c.deletePending with
      | false => exact ((h.live hc hremoved).2.1 k).mp hk
      | true => exact absurd hk ((h.dying hc hremoved).2.1 k)

/-- Keeping is right while a poll is outstanding. -/
theorem Sound.condemn (h : Sound p packets) (hc : p.socks.get? a = some c)
    (hkept : c.deletePending = false) (hbusy : c.pollStatus ≠ .idle)
    (hkey : c'.key = c.key) (hgroup : c'.pollGroup = c.pollGroup)
    (hremoved : c'.deletePending = true) (hwaiting : c'.pollStatus ≠ .idle) :
    Sound (p.condemned a c') packets := by
  obtain ⟨busy, tree, deleted⟩ := h.live hc hkept
  refine ⟨h.outstanding, h.keys.sublist (List.erase_sublist.map _), h.updating.erase a, ?_, ?_,
    h.fits_of_onlyAt (a := a) ?_ ?_⟩
  · exact List.nodup_append.mpr ⟨h.deleted, List.nodup_singleton a, fun b hb d hd hbd =>
      deleted (List.mem_singleton.mp hd ▸ hbd ▸ hb)⟩
  · have heq : load (p.socks.write a c') = load p.socks := funext (load_write p.socks hc hgroup)
    simp only [condemned]
    rw [heq]
    exact h.groups
  · intro b hb
    exact ⟨Heap.get?_write_of_ne _ hb, Iff.rfl, Iff.rfl, mem_tree_erase hb,
      List.mem_erase_of_ne hb, by simp [condemned, hb]⟩
  · refine .dying c' (Heap.get?_write_self _ _ _) hremoved (busy.mpr hbusy) hwaiting ?_
      h.updating.not_mem_erase (List.mem_append_right _ (List.mem_singleton_self a))
    simp only [condemned, hkey]
    exact h.not_mem_tree_erase fun k hk => (tree k).mp hk

theorem freeOrKeep_idle {groups : List PollGroup} (hc : p.socks.get? a = some c)
    (hidle : c.pollStatus = .idle)
    (hrelease : pollGroupRelease c.pollGroup p.pollGroupQueue = some groups) :
    p.freeOrKeep a false = some { p.queueRemove a with
      pollGroupQueue := groups
      socks := p.socks.free a } := by
  have hfree : false = true ∨ c.pollStatus = .idle := Or.inr hidle
  simp only [freeOrKeep, hc, if_pos hfree, removeDeletedSocket_eq]
  simp only [queueRemove, hrelease, Option.map_some]

theorem freeOrKeep_busy (hc : p.socks.get? a = some c) (hbusy : c.pollStatus ≠ .idle) :
    p.freeOrKeep a false = some (p.addDeletedSocket a) := by
  have hkeep : ¬ (false = true ∨ c.pollStatus = .idle) := by simpa using hbusy
  simp only [freeOrKeep, hc, if_neg hkeep]

/-- A registered socket has lost its places in the tree and in the queues. -/
def unlinked (p : Port) (a key : Nat) : Port :=
  { p with
    sockTree := p.sockTree.erase (key, a)
    sockUpdateQueue := p.sockUpdateQueue.erase a
    sockDeletedQueue := p.sockDeletedQueue.erase a }

theorem unregister_eq (htree : (c.key, a) ∈ p.sockTree) :
    (p.cancelSocketUpdate a).unregisterSocket c.key a = some (p.unlinked a c.key) := by
  rw [cancelSocketUpdate_eq]
  exact if_pos (List.contains_iff_mem.mpr htree)

/-- What `sock__delete` does to a registered socket, by the fields that it leaves. -/
theorem sockDelete_eq (hc : p.socks.get? a = some c) (hkept : c.deletePending = false)
    (htree : (c.key, a) ∈ p.sockTree) (ans : Answers) :
    ∃ c₁ : SockState, c₁.key = c.key ∧ c₁.pollGroup = c.pollGroup ∧
      (c₁.pollStatus = .idle ↔ c.pollStatus = .idle) ∧
      p.sockDelete ans a false =
        ((p.unlinked a c.key).store a { c₁ with deletePending := true }).freeOrKeep a false := by
  rw [sockDelete, hc]
  simp only [hkept, Bool.false_eq_true, if_false]
  have finish : ∀ c₁ : SockState, c₁.key = c.key →
      ((p.cancelSocketUpdate a).unregisterSocket c₁.key a).bind (fun q =>
        (q.store a { c₁ with deletePending := true }).freeOrKeep a false) =
      ((p.unlinked a c.key).store a { c₁ with deletePending := true }).freeOrKeep a false := by
    intro c₁ hkey
    rw [hkey, unregister_eq htree, Option.bind_some]
  by_cases hpending : c.pollStatus = .pending
  · rw [if_pos hpending]
    unfold SockState.cancelPoll
    split
    · exact ⟨c, rfl, rfl, Iff.rfl, finish c rfl⟩
    · refine ⟨{ c with pollStatus := .cancelled, pendingEvents := 0 }, rfl, rfl, ?_, finish _ rfl⟩
      simp [hpending]
  · rw [if_neg hpending]
    exact ⟨c, rfl, rfl, Iff.rfl, finish c rfl⟩

/-- A registered socket without an outstanding poll is freed at once. -/
theorem Sound.sockDelete_idle (h : Sound p packets) (hc : p.socks.get? a = some c)
    (hkept : c.deletePending = false) (hidle : c.pollStatus = .idle) (ans : Answers) :
    ∃ p', p.sockDelete ans a false = some p' ∧ Sound p' packets ∧ Removes p p' a c.key := by
  obtain ⟨busy, tree, deleted⟩ := h.live hc hkept
  obtain ⟨groups, hrelease, hgroups⟩ :=
    h.groups.release (load_pos p.socks hc) (load_free p.socks hc)
  obtain ⟨c₁, _, hgroup, hstatus, hdelete⟩ := sockDelete_eq hc hkept ((tree c.key).mpr rfl) ans
  refine ⟨p.dropped a c.key groups, ?_, ?_, removes_dropped p a c.key groups⟩
  · have hget : ((p.unlinked a c.key).store a { c₁ with deletePending := true }).socks.get? a =
        some { c₁ with deletePending := true } := Heap.get?_write_self _ _ _
    have hrelease₁ : pollGroupRelease c₁.pollGroup p.pollGroupQueue = some groups := by
      rw [hgroup, hrelease]
    rw [hdelete, freeOrKeep_idle hget (hstatus.mpr hidle) hrelease₁]
    simp only [queueRemove, Port.store, unlinked, Heap.free_write, dropped,
      List.erase_of_not_mem h.updating.not_mem_erase,
      List.erase_of_not_mem h.deleted.not_mem_erase]
  · apply h.drop hc hgroups h.outstanding
    intro b
    refine ⟨fun hb => ⟨hb, ?_⟩, fun hb => hb.1⟩
    rintro rfl
    exact busy.mp hb hidle

/-- One with an outstanding poll is kept until its packet has come. -/
theorem Sound.sockDelete_busy (h : Sound p packets) (hc : p.socks.get? a = some c)
    (hkept : c.deletePending = false) (hbusy : c.pollStatus ≠ .idle) (ans : Answers) :
    ∃ p', p.sockDelete ans a false = some p' ∧ Sound p' packets ∧ Removes p p' a c.key := by
  obtain ⟨busy, tree, deleted⟩ := h.live hc hkept
  obtain ⟨c₁, hkey, hgroup, hstatus, hdelete⟩ := sockDelete_eq hc hkept ((tree c.key).mpr rfl) ans
  have hwaiting : c₁.pollStatus ≠ .idle := hstatus.not.mpr hbusy
  refine ⟨p.condemned a { c₁ with deletePending := true }, ?_,
    h.condemn hc hkept hbusy hkey hgroup rfl hwaiting, ?_⟩
  · have hget : ((p.unlinked a c.key).store a { c₁ with deletePending := true }).socks.get? a =
        some { c₁ with deletePending := true } := Heap.get?_write_self _ _ _
    have hqueued : a ∉ p.sockUpdateQueue.erase a := h.updating.not_mem_erase
    rw [hdelete, freeOrKeep_busy hget hwaiting]
    simp only [addDeletedSocket, isEnqueued, Port.store, unlinked, condemned,
      List.erase_of_not_mem deleted, List.contains_eq_mem, decide_eq_false hqueued,
      decide_eq_false deleted, Bool.or_false, Bool.false_eq_true, if_false, hkey]
  · have hremoves := removes_condemned p a (c := { c₁ with deletePending := true }) rfl
    rw [← hkey]
    exact hremoves

theorem Sound.sockDelete (h : Sound p packets) (hc : p.socks.get? a = some c)
    (hkept : c.deletePending = false) (ans : Answers) :
    ∃ p', p.sockDelete ans a false = some p' ∧ Sound p' packets ∧ Removes p p' a c.key := by
  by_cases hidle : c.pollStatus = .idle
  · exact h.sockDelete_idle hc hkept hidle ans
  · exact h.sockDelete_busy hc hkept hidle ans

end Port

end FFZKit.Win32.Wepoll

import FFZKit.Win32.WepollPort

/-!
# Poll groups

A poll group is one device handle that at most 32 sockets share. A group that
is full goes to the front of the queue and one that is left goes to the end, so
the last group has room whenever any group has.
-/

namespace FFZKit.Win32.Wepoll

/-- No full group stands behind one that has room. -/
def FullFirst (groups : List PollGroup) : Prop :=
  groups.Pairwise fun g h => h.groupSize = maxGroupSize → g.groupSize = maxGroupSize

/-- The groups and the number of members of each. -/
structure Groups (load : Nat → Nat) (groups : List PollGroup) : Prop where
  distinct : (groups.map PollGroup.address).Nodup
  sizes : ∀ g ∈ groups, g.groupSize = load g.address
  bound : ∀ g ∈ groups, g.groupSize ≤ maxGroupSize
  members : ∀ x, 0 < load x → x ∈ groups.map PollGroup.address
  order : FullFirst groups

theorem groups_nil : Groups (fun _ => 0) [] where
  distinct := List.nodup_nil
  sizes := by simp
  bound := by simp
  members := by simp
  order := List.Pairwise.nil

variable {load load' : Nat → Nat} {groups groups' : List PollGroup} {g : PollGroup} {x : Nat}

/-- When the last group is full, so are all. -/
theorem Groups.all_full (h : Groups load groups) (hlast : groups.getLast? = some g)
    (hfull : maxGroupSize ≤ g.groupSize) : ∀ k ∈ groups, k.groupSize = maxGroupSize := by
  obtain ⟨front, rfl⟩ := List.getLast?_eq_some_iff.mp hlast
  have hg : g.groupSize = maxGroupSize := Nat.le_antisymm (h.bound g (by simp)) hfull
  intro k hk
  rcases List.mem_append.mp hk with hfront | hsame
  · exact (List.pairwise_append.mp h.order).2.2 k hfront g (by simp) hg
  · rw [List.mem_singleton.mp hsame, hg]

theorem FullFirst.place {others : List PollGroup} (h : FullFirst others) (g : PollGroup)
    (size : Nat) : FullFirst (placeGroup others g size) := by
  unfold placeGroup
  split
  · rename_i hfull
    exact List.pairwise_cons.mpr ⟨fun _ _ _ => hfull, h⟩
  · rename_i hroom
    refine List.pairwise_append.mpr ⟨h, List.pairwise_singleton _ _, fun k _ l hl hfull => ?_⟩
    rw [List.mem_singleton.mp hl] at hfull
    exact absurd hfull hroom

theorem placeGroup_perm (others : List PollGroup) (g : PollGroup) (size : Nat) :
    (placeGroup others g size).Perm ({ g with groupSize := size } :: others) := by
  unfold placeGroup
  split
  · exact List.Perm.refl _
  · exact List.perm_append_singleton _ _

/-- One group gets the size that fits its new number of members, and its new place. -/
theorem Groups.replace {others : List PollGroup} (h : Groups load groups)
    (hperm : groups.Perm (g :: others)) (horder : FullFirst others) {size : Nat}
    (hsize : size = load' g.address) (hbound : size ≤ maxGroupSize)
    (hother : ∀ y, y ≠ g.address → load' y = load y) :
    Groups load' (placeGroup others g size) := by
  have hdistinct := (hperm.map PollGroup.address).nodup_iff.mp h.distinct
  have hfresh := (List.nodup_cons.mp hdistinct).1
  have hplace := placeGroup_perm others g size
  constructor
  · exact (hplace.map PollGroup.address).nodup_iff.mpr hdistinct
  · intro k hk
    rcases List.mem_cons.mp (hplace.subset hk) with rfl | hold
    · exact hsize
    · have hne : k.address ≠ g.address := fun heq => hfresh (heq ▸ List.mem_map_of_mem hold)
      rw [hother k.address hne]
      exact h.sizes k (hperm.symm.subset (List.mem_cons_of_mem _ hold))
  · intro k hk
    rcases List.mem_cons.mp (hplace.subset hk) with rfl | hold
    · exact hbound
    · exact h.bound k (hperm.symm.subset (List.mem_cons_of_mem _ hold))
  · intro y hy
    apply (hplace.map PollGroup.address).symm.subset
    by_cases hyg : y = g.address
    · exact hyg ▸ List.mem_cons_self
    · rw [hother y hyg] at hy
      exact (hperm.map PollGroup.address).subset (h.members y hy)
  · exact horder.place g size

/-- A new group has no members. -/
theorem Groups.append_new (h : Groups load groups) {a : Nat}
    (hfresh : a ∉ groups.map PollGroup.address) : Groups load (groups ++ [⟨a, 0⟩]) where
  distinct := by
    rw [List.map_append, List.map_singleton, List.nodup_append]
    refine ⟨h.distinct, List.nodup_singleton _, fun y hy z hz => ?_⟩
    rw [List.mem_singleton.mp hz]
    rintro rfl
    exact hfresh hy
  sizes := by
    rw [List.forall_mem_append]
    refine ⟨h.sizes, fun k hk => ?_⟩
    have hzero : ¬ 0 < load a := fun hpos => hfresh (h.members a hpos)
    rw [List.mem_singleton.mp hk]
    exact (Nat.eq_zero_of_not_pos hzero).symm
  bound := by
    rw [List.forall_mem_append]
    exact ⟨h.bound, by simp⟩
  members := by
    intro y hy
    rw [List.map_append]
    exact List.mem_append_left _ (h.members y hy)
  order := h.order.place ⟨a, 0⟩ 0

/-- The chosen group has room, and it is new only when all groups are full. -/
theorem Groups.chosen (h : Groups load groups) {newGroup : Except Error Nat}
    (hnew : ∀ a, newGroup = .ok a → a ∉ groups.map PollGroup.address)
    {others : List PollGroup} (hchosen : chosenGroup newGroup groups = .ok (others, g)) :
    Groups load (others ++ [g]) ∧ g.groupSize < maxGroupSize ∧
      (g.address ∉ groups.map PollGroup.address → ∀ k ∈ groups, k.groupSize = maxGroupSize) := by
  have hmade : newGroup.map (fun a => (groups, (⟨a, 0⟩ : PollGroup))) = .ok (others, g) →
      Groups load (others ++ [g]) ∧ g.groupSize < maxGroupSize := by
    intro hmap
    cases newGroup with
    | error e => cases hmap
    | ok a =>
        cases hmap
        exact ⟨h.append_new (hnew a rfl), Nat.zero_lt_succ 31⟩
  unfold chosenGroup at hchosen
  split at hchosen
  · rename_i last hlast
    split at hchosen
    · rename_i hfull
      obtain ⟨hgroups, hroom⟩ := hmade hchosen
      exact ⟨hgroups, hroom, fun _ => h.all_full hlast hfull⟩
    · rename_i hroom
      cases hchosen
      have hsplit : groups.dropLast ++ [g] = groups := List.dropLast_append_getLast? g hlast
      refine ⟨hsplit.symm ▸ h, by omega, fun hnot => absurd ?_ hnot⟩
      exact List.mem_map_of_mem (List.mem_of_getLast? hlast)
  · rename_i hempty
    obtain ⟨hgroups, hroom⟩ := hmade hchosen
    rw [List.getLast?_eq_none_iff.mp hempty]
    exact ⟨hgroups, hroom, by simp⟩

/-- A socket joins the group that it gets. -/
theorem Groups.acquire (h : Groups load groups) {newGroup : Except Error Nat}
    (hnew : ∀ a, newGroup = .ok a → a ∉ groups.map PollGroup.address)
    (hacquire : pollGroupAcquire newGroup groups = .ok (groups', x))
    (hload : ∀ y, load' y = load y + if y = x then 1 else 0) : Groups load' groups' := by
  unfold pollGroupAcquire at hacquire
  cases hchosen : chosenGroup newGroup groups with
  | error e =>
      rw [hchosen] at hacquire
      cases hacquire
  | ok chosen =>
      obtain ⟨others, g⟩ := chosen
      rw [hchosen] at hacquire
      cases hacquire
      obtain ⟨hgroups, hroom, _⟩ := h.chosen hnew hchosen
      apply hgroups.replace (List.perm_append_singleton _ _)
      · exact (List.pairwise_append.mp hgroups.order).1
      · rw [hload, if_pos rfl, hgroups.sizes g (by simp)]
      · exact hroom
      · intro y hy
        rw [hload, if_neg hy, Nat.add_zero]

/-- A member leaves its group. -/
theorem Groups.release (h : Groups load groups) (hpos : 0 < load x)
    (hload : ∀ y, load' y + (if y = x then 1 else 0) = load y) :
    ∃ groups', pollGroupRelease x groups = some groups' ∧ Groups load' groups' := by
  obtain ⟨k, hk, rfl⟩ := List.mem_map.mp (h.members x hpos)
  have hsome : (groups.find? (·.address = k.address)).isSome := by
    rw [List.find?_isSome]
    exact ⟨k, hk, by simp⟩
  obtain ⟨g, hfind⟩ := Option.isSome_iff_exists.mp hsome
  have hg : g ∈ groups := List.mem_of_find?_eq_some hfind
  have haddress : g.address = k.address := by simpa using List.find?_some hfind
  have hsize := h.sizes g hg
  have hle := h.bound g hg
  have hpositive : 0 < load g.address := haddress ▸ hpos
  have hroom : ¬ (g.groupSize = 0 ∨ maxGroupSize ≤ g.groupSize - 1) := by omega
  refine ⟨placeGroup (groups.erase g) g (g.groupSize - 1), ?_, ?_⟩
  · have hplace : g.groupSize - 1 ≠ maxGroupSize := by omega
    simp only [pollGroupRelease, hfind, if_neg hroom, placeGroup, if_neg hplace]
  · have hload' := hload g.address
    rw [haddress, if_pos rfl, ← haddress] at hload'
    apply h.replace (List.perm_cons_erase hg)
    · exact h.order.sublist List.erase_sublist
    · omega
    · omega
    · intro y hy
      have hsame := hload y
      rwa [if_neg (haddress ▸ hy), Nat.add_zero] at hsame

end FFZKit.Win32.Wepoll

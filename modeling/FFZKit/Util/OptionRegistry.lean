import FFZKit.Util.OptionParser

/-!
# When the two maps of `OptionParser` agree

After a deletion the number of options may be the index of an option that is
still there. The next option is then not inserted, while its short character
leads to the option in its place. A deletion also takes the character away from
another option that carries it.
-/

namespace FFZKit.Util.OptionParser

open FFZKit.Foundations.Transition
open Std (ExtTreeMap)

variable {Handler : Type*}

/-- Every registered option is in the map, and the characters lead to the
present options that carry them, and nowhere else. -/
structure Consistent (s : OptionParser Handler) : Prop where
  present : ∀ option ∈ s.registered, ∃ index : Nat, s.mapOptions[index]? = some option
  short : ∀ (index : Nat) (option : CmdOption Handler), s.mapOptions[index]? = some option →
    option.shortOpt ≠ 0 → ∃ found : Nat, s.mapCharIndex[option.shortOpt]? = some found
  only : ∀ (c : UInt8) (index : Nat), s.mapCharIndex[c]? = some index →
    c ≠ 0 ∧ ∃ option : CmdOption Handler,
      s.mapOptions[index]? = some option ∧ option.shortOpt = c

/-- The name of a new option is not that of a registered one. -/
def Distinct (s : OptionParser Handler) : Action Handler → Prop
  | .add option => option.longOpt ∉ s.registered.map CmdOption.longOpt
  | .delOption _ => True

instance (s : OptionParser Handler) (a : Action Handler) : Decidable (Distinct s a) :=
  match a with
  | .add option => inferInstanceAs (Decidable (option.longOpt ∉ s.registered.map CmdOption.longOpt))
  | .delOption _ => isTrue trivial

/-- A new option finds its index free, and a deleted one shares its short
character with no other. -/
def Careful (s : OptionParser Handler) : Action Handler → Prop
  | .add _ => 0xFF + s.mapOptions.size ∉ s.mapOptions
  | .delOption key => ∀ (i j : Nat) (option other : CmdOption Handler),
      s.mapOptions[i]? = some option → s.mapOptions[j]? = some other → option.longOpt = key →
        option.shortOpt ≠ 0 → other.shortOpt = option.shortOpt → i = j

/-- A consistent registry whose options are told apart by their names. -/
structure Tidy (s : OptionParser Handler) : Prop where
  consistent : Consistent s
  known : ∀ (index : Nat) (option : CmdOption Handler),
    s.mapOptions[index]? = some option → option ∈ s.registered
  named : ∀ (i j : Nat) (option other : CmdOption Handler), s.mapOptions[i]? = some option →
    s.mapOptions[j]? = some other → option.longOpt = other.longOpt → i = j

/-- In a consistent registry a short character runs an option that carries it. -/
theorem Consistent.lookup_short {s : OptionParser Handler} (h : Consistent s) {index : Nat}
    {option : CmdOption Handler} (hoption : s.mapOptions[index]? = some option)
    (hshort : option.shortOpt ≠ 0) (hchar : option.shortOpt ≠ 0xFF) :
    ∃ found, s.lookup option.shortOpt.toNat = some found ∧
      found.shortOpt = option.shortOpt := by
  obtain ⟨position, hposition⟩ := h.short index option hoption hshort
  obtain ⟨_, found, hfound, hsame⟩ := h.only _ position hposition
  have hlt : option.shortOpt.toNat < 0xFF := by
    have hne : option.shortOpt.toNat ≠ 0xFF := fun heq => hchar (UInt8.toNat_inj.mp heq)
    have hle := option.shortOpt.toNat_lt
    omega
  refine ⟨found, ?_, hsame⟩
  simp [lookup, hlt, hposition, hfound]

section Add

variable {s : OptionParser Handler} {option : CmdOption Handler}

/-- An insertion at a free index adds the option and keeps the others. -/
theorem getElem?_add (hfree : 0xFF + s.mapOptions.size ∉ s.mapOptions) (k : Nat) :
    (s.add option).mapOptions[k]? =
      if k = 0xFF + s.mapOptions.size then some option else s.mapOptions[k]? := by
  simp only [add, ExtTreeMap.getElem?_insertIfNew, Std.LawfulEqCmp.compare_eq_iff_eq]
  by_cases hk : k = 0xFF + s.mapOptions.size
  · rw [if_pos ⟨hk.symm, hfree⟩, if_pos hk]
  · rw [if_neg (fun h => hk h.1.symm), if_neg hk]

/-- An insertion at an index in use changes nothing. -/
theorem getElem?_add_of_mem (htaken : 0xFF + s.mapOptions.size ∈ s.mapOptions) (k : Nat) :
    (s.add option).mapOptions[k]? = s.mapOptions[k]? := by
  simp only [add, ExtTreeMap.getElem?_insertIfNew]
  rw [if_neg fun h => h.2 htaken]

/-- A character leads where it led before, or to the new option. -/
theorem getElem?_mapCharIndex_add (c : UInt8) :
    (s.add option).mapCharIndex[c]? =
      if c = option.shortOpt ∧ c ≠ 0 ∧ c ∉ s.mapCharIndex then some (0xFF + s.mapOptions.size)
      else s.mapCharIndex[c]? := by
  by_cases hshort : option.shortOpt = 0
  · rw [if_neg (fun h => h.2.1 (h.1.trans hshort))]
    simp [add, hshort]
  · simp only [add, if_pos hshort, ExtTreeMap.getElem?_insertIfNew,
      Std.LawfulEqCmp.compare_eq_iff_eq]
    by_cases hc : c = option.shortOpt
    · simp [hc, hshort]
    · rw [if_neg fun h => hc h.1.symm, if_neg fun h => hc h.1]

theorem getElem?_add_self (hfree : 0xFF + s.mapOptions.size ∉ s.mapOptions) :
    (s.add option).mapOptions[0xFF + s.mapOptions.size]? = some option := by
  rw [getElem?_add hfree, if_pos rfl]

theorem getElem?_add_of_some (hfree : 0xFF + s.mapOptions.size ∉ s.mapOptions) {k : Nat}
    {o : CmdOption Handler} (hk : s.mapOptions[k]? = some o) :
    (s.add option).mapOptions[k]? = some o := by
  rw [getElem?_add hfree, if_neg, hk]
  rintro rfl
  rw [ExtTreeMap.getElem?_eq_none hfree] at hk
  cases hk

/-- An option that finds its index free is added with its character. -/
theorem Consistent.add (consistent : Consistent s)
    (hfree : 0xFF + s.mapOptions.size ∉ s.mapOptions) : Consistent (s.add option) := by
  refine ⟨fun o ho => ?_, fun k o hk hshort => ?_, fun c k hk => ?_⟩
  · rcases List.mem_append.mp ho with ho | ho
    · obtain ⟨k, hk⟩ := consistent.present o ho
      exact ⟨k, getElem?_add_of_some hfree hk⟩
    · obtain rfl := List.mem_singleton.mp ho
      exact ⟨_, getElem?_add_self hfree⟩
  · rw [getElem?_mapCharIndex_add]
    split
    · exact ⟨_, rfl⟩
    · rename_i hchar
      rw [getElem?_add hfree] at hk
      split at hk
      · cases hk
        have hmem : option.shortOpt ∈ s.mapCharIndex := by
          by_contra hnot
          exact hchar ⟨rfl, hshort, hnot⟩
        exact Option.isSome_iff_exists.mp (ExtTreeMap.mem_iff_isSome_getElem?.mp hmem)
      · exact consistent.short k o hk hshort
  · rw [getElem?_mapCharIndex_add] at hk
    split at hk
    · rename_i hchar
      cases hk
      exact ⟨hchar.2.1, option, getElem?_add_self hfree, hchar.1.symm⟩
    · obtain ⟨hc, o, ho, hsame⟩ := consistent.only c k hk
      exact ⟨hc, o, getElem?_add_of_some hfree ho, hsame⟩

end Add

theorem consistent_add_iff {s : OptionParser Handler} (tidy : Tidy s)
    {option : CmdOption Handler} (hdistinct : Distinct s (.add option)) :
    Consistent (s.add option) ↔ Careful s (.add option) := by
  constructor
  · intro consistent htaken
    obtain ⟨k, hk⟩ := consistent.present option (by simp [OptionParser.add])
    rw [getElem?_add_of_mem htaken] at hk
    exact hdistinct (List.mem_map.mpr ⟨option, tidy.known k option hk, rfl⟩)
  · exact tidy.consistent.add

theorem tidy_add {s : OptionParser Handler} (tidy : Tidy s) {option : CmdOption Handler}
    (hdistinct : Distinct s (.add option)) (hcareful : Careful s (.add option)) :
    Tidy (s.add option) := by
  have hname : ∀ (k : Nat) (o : CmdOption Handler), s.mapOptions[k]? = some o →
      o.longOpt ≠ option.longOpt := by
    intro k o hk heq
    exact hdistinct (List.mem_map.mpr ⟨o, tidy.known k o hk, heq⟩)
  refine ⟨(consistent_add_iff tidy hdistinct).mpr hcareful, fun k o hk => ?_,
    fun i j o other hi hj heq => ?_⟩
  · rw [getElem?_add hcareful] at hk
    split at hk
    · cases hk
      simp [add]
    · exact List.mem_append_left _ (tidy.known k o hk)
  · rw [getElem?_add hcareful] at hi hj
    split at hi
    · rename_i hi'
      cases hi
      split at hj
      · rename_i hj'
        rw [hi', hj']
      · exact (hname j other hj heq.symm).elim
    · split at hj
      · cases hj
        exact (hname i o hi heq).elim
      · exact tidy.named i j o other hi hj heq

/-- What `delOption` does: nothing to the maps when no option has the name, and
otherwise it erases the option with the name and its character. -/
theorem delOption_cases (s : OptionParser Handler) (key : String) :
    ((∀ (k : Nat) (o : CmdOption Handler), s.mapOptions[k]? = some o → o.longOpt ≠ key) ∧
      (s.delOption key).mapOptions = s.mapOptions ∧
      (s.delOption key).mapCharIndex = s.mapCharIndex) ∨
    ∃ (index : Nat) (option : CmdOption Handler), s.mapOptions[index]? = some option ∧
      option.longOpt = key ∧ (s.delOption key).mapOptions = s.mapOptions.erase index ∧
      (s.delOption key).mapCharIndex =
        if option.shortOpt ≠ 0 then s.mapCharIndex.erase option.shortOpt else s.mapCharIndex := by
  cases hfind : s.mapOptions.toList.find? fun pr => pr.2.longOpt = key with
  | none =>
      refine Or.inl ⟨fun k o hk heq => ?_, by simp [delOption, hfind], by simp [delOption, hfind]⟩
      have hnot := List.find?_eq_none.mp hfind (k, o)
        (ExtTreeMap.mem_toList_iff_getElem?_eq_some.mpr hk)
      exact hnot (by simpa using heq)
  | some pr =>
      obtain ⟨index, option⟩ := pr
      refine Or.inr ⟨index, option, ?_, by simpa using List.find?_some hfind,
        by simp [delOption, hfind], by simp [delOption, hfind]⟩
      exact ExtTreeMap.mem_toList_iff_getElem?_eq_some.mp (List.mem_of_find?_eq_some hfind)

theorem mem_registered_delOption {s : OptionParser Handler} {key : String}
    {o : CmdOption Handler} :
    o ∈ (s.delOption key).registered ↔ o ∈ s.registered ∧ o.longOpt ≠ key := by
  unfold delOption
  split <;> simp

section Delete

variable {s : OptionParser Handler} {index : Nat}

theorem getElem?_erase_eq_some {k : Nat} {o : CmdOption Handler} :
    (s.mapOptions.erase index)[k]? = some o ↔ k ≠ index ∧ s.mapOptions[k]? = some o := by
  simp only [ExtTreeMap.getElem?_erase, Std.LawfulEqCmp.compare_eq_iff_eq]
  split
  · rename_i hk
    simp [hk]
  · rename_i hk
    simp [Ne.symm hk]

/-- The character of a deleted option leads nowhere, and the others where they led. -/
theorem getElem?_eraseChar (chars : ExtTreeMap UInt8 Nat compare) (erased c : UInt8) :
    (if erased ≠ 0 then chars.erase erased else chars)[c]? =
      if c = erased ∧ c ≠ 0 then none else chars[c]? := by
  split
  · rename_i herased
    simp only [ExtTreeMap.getElem?_erase, Std.LawfulEqCmp.compare_eq_iff_eq]
    by_cases hc : c = erased
    · rw [if_pos hc.symm, if_pos ⟨hc, hc ▸ herased⟩]
    · rw [if_neg (Ne.symm hc), if_neg fun h => hc h.1]
  · rename_i herased
    rw [if_neg]
    rintro ⟨rfl, hc⟩
    exact herased hc

end Delete

/-- The character of another option would be lost with the deleted one. -/
theorem careful_of_consistent_delOption {s : OptionParser Handler} (tidy : Tidy s) {key : String}
    (consistent : Consistent (s.delOption key)) : Careful s (.delOption key) := by
  intro i j o other hi hj heq hshort hsame
  rcases delOption_cases s key with ⟨hnone, -, -⟩ |
    ⟨index, option, hoption, hkey, hoptions, hchars⟩
  · exact (hnone i o hi heq).elim
  · obtain rfl := tidy.named i index o option hi hoption (heq.trans hkey.symm)
    obtain rfl : o = option := Option.some.inj (hi.symm.trans hoption)
    by_contra hne
    obtain ⟨found, hfound⟩ := consistent.short j other
      (hoptions ▸ getElem?_erase_eq_some.mpr ⟨Ne.symm hne, hj⟩) (hsame ▸ hshort)
    rw [hchars, getElem?_eraseChar, if_pos ⟨hsame, hsame ▸ hshort⟩] at hfound
    cases hfound

theorem consistent_delOption {s : OptionParser Handler} (tidy : Tidy s) {key : String}
    (careful : Careful s (.delOption key)) : Consistent (s.delOption key) := by
  rcases delOption_cases s key with ⟨hnone, hoptions, hchars⟩ |
    ⟨index, option, hoption, hkey, hoptions, hchars⟩
  · refine ⟨fun o ho => ?_, ?_, ?_⟩
    · rw [hoptions]
      exact tidy.consistent.present o (mem_registered_delOption.mp ho).1
    · rw [hoptions, hchars]
      exact tidy.consistent.short
    · rw [hoptions, hchars]
      exact tidy.consistent.only
  · refine ⟨fun o ho => ?_, fun k o hk hshort => ?_, fun c k hk => ?_⟩
    · obtain ⟨hmem, hname⟩ := mem_registered_delOption.mp ho
      obtain ⟨k, hk⟩ := tidy.consistent.present o hmem
      refine ⟨k, hoptions ▸ getElem?_erase_eq_some.mpr ⟨?_, hk⟩⟩
      rintro rfl
      obtain rfl : o = option := Option.some.inj (hk.symm.trans hoption)
      exact hname hkey
    · rw [hoptions] at hk
      obtain ⟨hne, hk⟩ := getElem?_erase_eq_some.mp hk
      -- the character of the deleted option is nobody else's
      rw [hchars, getElem?_eraseChar, if_neg]
      · exact tidy.consistent.short k o hk hshort
      · rintro ⟨hsame, -⟩
        exact hne (careful index k option o hoption hk hkey (hsame ▸ hshort) hsame).symm
    · rw [hchars, getElem?_eraseChar] at hk
      split at hk
      · cases hk
      · rename_i hother
        obtain ⟨hc, o, ho, hsame⟩ := tidy.consistent.only c k hk
        refine ⟨hc, o, hoptions ▸ getElem?_erase_eq_some.mpr ⟨?_, ho⟩, hsame⟩
        rintro rfl
        obtain rfl : o = option := Option.some.inj (ho.symm.trans hoption)
        exact hother ⟨hsame.symm, hc⟩

theorem consistent_delOption_iff {s : OptionParser Handler} (tidy : Tidy s) (key : String) :
    Consistent (s.delOption key) ↔ Careful s (.delOption key) :=
  ⟨careful_of_consistent_delOption tidy, consistent_delOption tidy⟩

theorem tidy_delOption {s : OptionParser Handler} (tidy : Tidy s) {key : String}
    (hcareful : Careful s (.delOption key)) : Tidy (s.delOption key) := by
  have hold : ∀ (k : Nat) (o : CmdOption Handler), (s.delOption key).mapOptions[k]? = some o →
      s.mapOptions[k]? = some o ∧ o.longOpt ≠ key := by
    intro k o hk
    rcases delOption_cases s key with ⟨hnone, hoptions, _⟩ |
      ⟨index, option, hoption, hkey, hoptions, _⟩
    · rw [hoptions] at hk
      exact ⟨hk, hnone k o hk⟩
    · rw [hoptions] at hk
      obtain ⟨hne, hk⟩ := getElem?_erase_eq_some.mp hk
      refine ⟨hk, fun heq => hne ?_⟩
      exact tidy.named k index o option hk hoption (heq.trans hkey.symm)
  refine ⟨(consistent_delOption_iff tidy key).mpr hcareful, fun k o hk => ?_,
    fun i j o other hi hj heq => ?_⟩
  · obtain ⟨hk, hname⟩ := hold k o hk
    exact mem_registered_delOption.mpr ⟨tidy.known k o hk, hname⟩
  · exact tidy.named i j o other (hold i o hi).1 (hold j other hj).1 heq

theorem tidy_init (help : Handler) : Tidy (init help) := by
  have hempty : Tidy (⟨∅, ∅, []⟩ : OptionParser Handler) := by
    refine ⟨⟨?_, ?_, ?_⟩, ?_, ?_⟩ <;> simp
  exact tidy_add hempty (by simp [Distinct]) (by simp [Careful])

/-- A step with distinct names keeps a tidy registry consistent exactly when it
is careful. -/
theorem consistent_iff {s t : OptionParser Handler} {a : Action Handler} (tidy : Tidy s)
    (hdistinct : Distinct s a) (hstep : step s a = some t) : Consistent t ↔ Careful s a := by
  cases a with
  | add option =>
      cases hstep
      exact consistent_add_iff tidy hdistinct
  | delOption key =>
      cases hstep
      exact consistent_delOption_iff tidy key

theorem tidy_step {s t : OptionParser Handler} {a : Action Handler} (tidy : Tidy s)
    (hdistinct : Distinct s a) (hcareful : Careful s a) (hstep : step s a = some t) : Tidy t := by
  cases a with
  | add option =>
      cases hstep
      exact tidy_add tidy hdistinct hcareful
  | delOption key =>
      cases hstep
      exact tidy_delOption tidy hcareful

/-- While names are distinct, the registry is consistent after every call
exactly when every call is careful. -/
theorem registry_consistent_iff (help : Handler) (as : List (Action Handler))
    (s : OptionParser Handler) :
    Run step (fun s a => Distinct s a ∧ stepsWith step (fun _ _ t => Consistent t) s a)
        (init help) as s ↔
      Run step (fun s a => Distinct s a ∧ Careful s a) (init help) as s := by
  symm
  refine Run.congr (P := Tidy) ?_ ?_ (tidy_init help)
  · intro s a t guarded hstep tidy
    exact tidy_step tidy guarded.1 guarded.2 hstep
  · intro s a t tidy hstep
    apply and_congr_right
    intro hdistinct
    constructor
    · intro careful u hu
      obtain rfl := Option.some.inj (hstep.symm.trans hu)
      exact (consistent_iff tidy hdistinct hstep).mpr careful
    · intro consistent
      exact (consistent_iff tidy hdistinct hstep).mp (consistent t hstep)

/-- The registry with options `a` and `b` after `a` was deleted. -/
def oneDeleted : OptionParser Nat :=
  (((init 0).add ⟨'a'.toUInt8, "a", 1⟩).add ⟨'b'.toUInt8, "b", 2⟩).delOption "a"

/-- An option added now finds the index of `b`, and is not in the map. -/
theorem registry_drops_addAfterDelete :
    ¬ ∀ (as : List (Action Nat)) (s : OptionParser Nat), Run step Distinct (init 0) as s →
      Run step (fun s a => Distinct s a ∧ stepsWith step (fun _ _ t => Consistent t) s a)
        (init 0) as s := by
  intro h
  let c : CmdOption Nat := ⟨'c'.toUInt8, "c", 3⟩
  have front : Run step Distinct (init 0)
      [.add ⟨'a'.toUInt8, "a", 1⟩, .add ⟨'b'.toUInt8, "b", 2⟩, .delOption "a"] oneDeleted :=
    .next (by decide) rfl <| .next (by decide) rfl <| .next (by decide) rfl .halt
  have last : Run step Distinct oneDeleted [.add c] (oneDeleted.add c) :=
    .single (by decide) rfl
  obtain ⟨s, front', last'⟩ := (h _ _ (front.append last)).split
  obtain rfl := front'.deterministic front
  cases last' with
  | next meets moves _ =>
      obtain ⟨index, hindex⟩ := (meets.2 _ rfl).present c (by simp [add])
      have hmem : c ∈ (oneDeleted.add c).mapOptions.toList.map Prod.snd :=
        List.mem_map.mpr ⟨_, ExtTreeMap.mem_toList_iff_getElem?_eq_some.mpr hindex, rfl⟩
      exact absurd hmem (by decide)

end FFZKit.Util.OptionParser

import FFZKit.Util.MiniLines

/-!
# What `trim` and `parse` throw on

Both overloads of `trim` run `TRIM`, whose table has no entry for byte 255. A
write there is outside the table and a read there throws.
-/

namespace FFZKit.Util

open FFZKit.Foundations

/-- `map[(unsigned char &)ch] = '\1'`, unless that is outside the table. -/
def setEntry (map : List Bool) (ch : UInt8) : Option (List Bool) :=
  if ch.toNat < map.length then some (map.set ch.toNat true) else none

/-- `TRIM(s, chars)`: what is left in `s`, unless it throws or writes outside its table. -/
def trimMacro (s chars : Bytes) : Option Bytes := do
  let map ← chars.foldlM setEntry (List.replicate 0xFF false)
  let s ← popBack map s
  eraseFront map s

/-- `trim(std::string &s, chars)`: the string that is left in `s` and returned. -/
def trimRef (s chars : Bytes) : Option Bytes := trimMacro s chars

/-- `trim(std::string &&s, chars)`: the string that is moved out of `s`. -/
def trimMove (s chars : Bytes) : Option Bytes := trimMacro s chars

/-- Both overloads of `trim` return `s` without the longest prefix and the
longest suffix made of bytes in `chars`. -/
def TrimExact (s chars : Bytes) : Prop :=
  ∃ t, trimRef s chars = some t ∧ trimMove s chars = some t ∧ Stripped chars.contains s t

/-- The first or the last byte of `s` that is not in `chars` is byte 255. -/
def Exposed (chars s : Bytes) : Prop :=
  s.find? (fun c => !chars.contains c) = some 0xFF ∨
    s.findRev? (fun c => !chars.contains c) = some 0xFF

instance (chars s : Bytes) : Decidable (Exposed chars s) := inferInstanceAs (Decidable (_ ∨ _))

/-- The table is written inside its bounds when byte 255 is not in `chars`. -/
theorem foldlM_setEntry (chars : Bytes) (map : List Bool) (hlen : map.length = 0xFF) :
    chars.foldlM setEntry map =
      if 0xFF ∈ chars then none
      else some (chars.foldl (fun map ch => map.set ch.toNat true) map) := by
  induction chars generalizing map with
  | nil => rfl
  | cons ch chars ih =>
      have hlt : ch.toNat < 256 := ch.toNat_lt
      rw [List.foldlM_cons, setEntry, hlen]
      by_cases hch : 0xFF = ch
      · subst hch
        rfl
      · have hne : ch.toNat ≠ 255 := fun h => hch (UInt8.toNat_inj.mp h.symm)
        rw [if_pos (by omega)]
        simp [ih (map.set ch.toNat true) (by rw [List.length_set, hlen]), hch]

theorem trimMacro_eq (s chars : Bytes) :
    trimMacro s chars = if 0xFF ∈ chars then none else trimChars s chars := by
  rw [trimMacro, foldlM_setEntry chars _ List.length_replicate]
  split <;> rfl

/-- Stripped of the characters, a string is exposed when byte 255 is at an end. -/
theorem edged_strip_iff (chars s : Bytes) : Edged (strip chars.contains s) ↔ ¬ Exposed chars s := by
  have hstripped : Stripped chars.contains s (strip chars.contains s) := stripped_strip
  rw [Edged, Exposed, hstripped.find?, hstripped.findRev?, not_or]

theorem trimExact_iff (s chars : Bytes) :
    TrimExact s chars ↔ 0xFF ∉ chars ∧ ¬ Exposed chars s := by
  have hbody : TrimExact s chars ↔ trimMacro s chars = some (strip chars.contains s) := by
    constructor
    · rintro ⟨t, href, -, hstripped⟩
      rw [← stripped_iff.mp hstripped]
      exact href
    · intro h
      exact ⟨_, h, h, stripped_strip⟩
  rw [hbody, trimMacro_eq, ← edged_strip_iff]
  by_cases hchars : 0xFF ∈ chars
  · simp [hchars]
  · rw [if_neg hchars, trimChars_eq hchars]
    simp [hchars]

namespace Mini

/-- Byte 255 is at no end of what is stripped in a line. -/
def Legible (line : Bytes) : Prop :=
  ¬ Exposed blanks line ∧
    match lineKind (strip isBlank line) with
    | .ignored => True
    | .header tag => Edged tag
    | .entry name value => Edged name ∧ Edged value

theorem parseLine_isSome_iff {st : Reader} (htag : Plain st.tag) (line : Bytes) :
    (parseLine st line).isSome ↔ Legible line := by
  have hends : Edged (strip isBlank line) ↔ ¬ Exposed blanks line := edged_strip_iff blanks line
  rw [parseLine_eq htag, Legible, ← hends]
  by_cases hedged : Edged (strip isBlank line)
  · cases lineKind (strip isBlank line) with
    | ignored => simp [hedged]
    | header tag => simp [hedged, apply_ite Option.isSome]
    | entry name value => simp [hedged, apply_ite Option.isSome]
  · simp [hedged]

theorem foldlM_parseLine_isSome_iff {lines : List Bytes} {st : Reader} (htag : Plain st.tag)
    (hlines : ∀ line ∈ lines, newline ∉ line) :
    (lines.foldlM parseLine st).isSome ↔ ∀ line ∈ lines, Legible line := by
  induction lines generalizing st with
  | nil => simp
  | cons line lines ih =>
      rw [List.forall_mem_cons, ← parseLine_isSome_iff htag line, List.foldlM_cons]
      cases hread : parseLine st line with
      | none => simp
      | some st' =>
          have hnext := (parseLine_readings htag (hlines line (by simp)) hread lines).1
          have hrest := ih hnext fun l hl => hlines l (by simp [hl])
          simpa using hrest

/-- `trim` is exact on a string, and `parse` reads a text, exactly when byte 255
stays away from the ends that are stripped. -/
theorem trim_total_iff (s chars : Bytes) (m : MINI) (text : Bytes) :
    (TrimExact s chars ↔ 0xFF ∉ chars ∧ ¬ Exposed chars s) ∧
      ((parse m text).isSome ↔ ∀ line ∈ text.splitOn newline, Legible line) := by
  constructor
  · exact trimExact_iff s chars
  · rw [parse_eq, Option.isSome_map]
    exact foldlM_parseLine_isSome_iff plain_nil fun line hl => notMem_of_mem_splitOn hl

/-- The byte 255 is a letter in Latin-1, here the last one of a value. -/
theorem not_trim_total :
    (¬ ∀ s chars, TrimExact s chars) ∧ ¬ ∀ (m : MINI) text, (parse m text).isSome := by
  have hexposed : Exposed blanks (ascii "name=" ++ [0xFF]) := by decide
  constructor
  · intro hexact
    exact ((trimExact_iff _ _).mp (hexact (ascii "name=" ++ [0xFF]) blanks)).2 hexposed
  · intro hparse
    have hread := hparse ∅ (ascii "name=" ++ [0xFF])
    have hone : newline ∉ ascii "name=" ++ [0xFF] := by decide
    rw [parse_eq, Option.isSome_map, List.splitOn_eq_singleton hone,
      foldlM_parseLine_isSome_iff plain_nil (by simpa using hone)] at hread
    exact (hread _ (List.mem_singleton_self _)).1 hexposed

end Mini

end FFZKit.Util

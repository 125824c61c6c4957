import FFZKit.Foundations.Pieces
import FFZKit.Util.Trim
import Mathlib.Data.List.Basic
import Std.Data.ExtTreeMap.Lemmas

/-!
# `mINI_basic`

The map of an INI file, its reader `parse` and its writer `dump`. The map is
ordered by the bytes of its keys, as `std::map<std::string, variant>` is. A
`variant` is the text it holds. Reading fails when a `trim` throws.
-/

namespace FFZKit.Util.Mini

open FFZKit.Foundations

/-- `mINI`: texts by key, in the order of the keys. -/
abbrev MINI := Std.ExtTreeMap Bytes Bytes compare

abbrev newline : UInt8 := '\n'.toUInt8
abbrev semicolon : UInt8 := ';'.toUInt8
abbrev hash : UInt8 := '#'.toUInt8
abbrev lbracket : UInt8 := '['.toUInt8
abbrev rbracket : UInt8 := ']'.toUInt8
abbrev equals : UInt8 := '='.toUInt8
abbrev dot : UInt8 := '.'.toUInt8

/-- `"\r\n"` -/
abbrev crlf : Bytes := ascii "\r\n"

/-- The vector `tokens`, which always has a last element `back`. -/
structure Tokens where
  front : List Bytes
  back : Bytes

/-- One turn of the loop of `tokenize`. -/
def Tokens.push (map : List Bool) (tokens : Tokens) (ch : UInt8) : Option Tokens :=
  match map[ch.toNat]? with
  | none => none
  | some false => some { tokens with back := tokens.back ++ [ch] }
  | some true =>
      if tokens.back ≠ [] then some ⟨tokens.front ++ [tokens.back], []⟩ else some tokens

/-- `tokenize(self, chars)` -/
def tokenize (self chars : Bytes) : Option (List Bytes) :=
  (self.foldlM (Tokens.push (charMap 256 chars)) ⟨[], []⟩).map fun tokens =>
    (tokens.front ++ [tokens.back]).rdropWhile List.isEmpty

/-- The variables of `parse`: the tag in force and the map. -/
structure Reader where
  tag : Bytes
  map : MINI

/-- The body of the loop of `parse`. -/
def parseLine (st : Reader) (line : Bytes) : Option Reader := do
  let line ← trim line
  if line = [] ∨ line.head? = some semicolon ∨ line.head? = some hash then
    return st
  else if 3 ≤ line.length ∧ line.head? = some lbracket ∧ line.getLast? = some rbracket then
    let tag ← trim ((line.drop 1).take (line.length - 2))
    return { st with tag := tag }
  else
    match line.idxOf? equals with
    | none =>
        let symbol ← trim (st.tag ++ [dot] ++ line)
        return { st with map := st.map.insert symbol [] }
    | some at_ =>
        let symbol ← trim (st.tag ++ [dot] ++ line.take at_)
        let value ← trim (line.drop (at_ + 1))
        return { st with map := st.map.insert symbol value }

/-- `parse(text)` on a given map. -/
def parse (m : MINI) (text : Bytes) : Option MINI := do
  let lines ← tokenize text [newline]
  let st ← lines.foldlM parseLine ⟨[], m⟩
  return st.map

/-- The split of a key in `dump`: at its first dot, or before the key. -/
def splitKey (key : Bytes) : Bytes × Bytes :=
  match key.idxOf? dot with
  | none => ([], key)
  | some pos => (key.take pos, key.drop (pos + 1))

/-- The variables of `dump`. -/
structure Writer where
  front : Bytes
  output : Bytes
  tag : Bytes

/-- The body of the loop of `dump`. -/
def dumpEntry (st : Writer) (pr : Bytes × Bytes) : Writer :=
  let kv := splitKey pr.1
  let line := kv.2 ++ [equals] ++ pr.2 ++ crlf
  if kv.1 = [] then { st with front := st.front ++ line }
  else if st.tag ≠ kv.1 then
    { st with
      output := st.output ++ (crlf ++ [lbracket] ++ kv.1 ++ [rbracket] ++ crlf) ++ line
      tag := kv.1 }
  else { st with output := st.output ++ line }

/-- The default `header`. -/
def defaultHeader : Bytes := ascii "; auto-generated by mINI class \x7b"

/-- The default `footer`. -/
def defaultFooter : Bytes := ascii "; \x7d ---"

/-- `dump(header, footer)` -/
def dump (m : MINI) (header footer : Bytes) : Bytes :=
  let st := m.toList.foldl dumpEntry
    ⟨header ++ (if header = [] then [] else crlf), [], []⟩
  st.front ++ st.output ++ crlf ++ footer ++ (if footer = [] then [] else crlf)

/-- A loop turn of `tokenize` on lines never throws: the table has an entry
for every byte. -/
theorem Tokens.push_newline (tokens : Tokens) (ch : UInt8) :
    tokens.push (charMap 256 [newline]) ch =
      if ch = newline then
        if tokens.back ≠ [] then some ⟨tokens.front ++ [tokens.back], []⟩ else some tokens
      else some { tokens with back := tokens.back ++ [ch] } := by
  rw [Tokens.push, charMap_getElem? 256 [newline] ch.toNat_lt]
  by_cases hch : ch = newline
  · simp [hch]
  · simp [hch]

theorem notMem_of_mem_splitOn {text line : Bytes} (h : line ∈ text.splitOn newline) :
    newline ∉ line := by
  rw [← List.singleton_infix_iff]
  exact (pieces_splitOn newline text).absent (List.cons_ne_nil newline []) line h

theorem rdropWhile_empty {front : List Bytes} (h : ∀ token ∈ front, token ≠ []) (back : Bytes) :
    (front ++ [back]).rdropWhile List.isEmpty = front ++ [back].filter (· ≠ []) := by
  by_cases hback : back = []
  · rw [hback, List.rdropWhile_concat_pos _ _ _ rfl]
    have hkeep : front.rdropWhile List.isEmpty = front := by
      apply rdropWhile_of_back
      intro token htoken
      have hne := h token (List.mem_of_getLast? htoken)
      simpa using hne
    simp [hkeep]
  · rw [List.rdropWhile_concat_neg _ _ _ (by simpa using hback)]
    simp [hback]

/-- The tokens of a text are its lines that are not empty. -/
theorem tokenize_newline (text : Bytes) :
    tokenize text [newline] = some ((text.splitOn newline).filter (· ≠ [])) := by
  have hfold : ∀ tokens : Tokens, (∀ token ∈ tokens.front, token ≠ []) → newline ∉ tokens.back →
      (text.foldlM (Tokens.push (charMap 256 [newline])) tokens).map
          (fun tokens => (tokens.front ++ [tokens.back]).rdropWhile List.isEmpty) =
        some (tokens.front ++ ((tokens.back ++ text).splitOn newline).filter (· ≠ [])) := by
    induction text with
    | nil =>
        intro tokens hfront hback
        rw [List.append_nil, List.splitOn_eq_singleton hback, ← rdropWhile_empty hfront]
        rfl
    | cons ch text ih =>
        intro tokens hfront hback
        rw [List.foldlM_cons, Tokens.push_newline]
        by_cases hch : ch = newline
        · rw [if_pos hch, hch, List.splitOn_append_cons_self_of_not_mem hback]
          by_cases hempty : tokens.back = []
          · have htail := ih tokens hfront hback
            rw [if_neg (not_not.mpr hempty)]
            simpa [hempty] using htail
          · have htail := ih ⟨tokens.front ++ [tokens.back], []⟩
              (by simpa [or_imp, forall_and] using ⟨hfront, hempty⟩) (by simp)
            rw [if_pos hempty]
            simpa [hempty] using htail
        · have htail := ih { tokens with back := tokens.back ++ [ch] } hfront
            (by simpa using ⟨hback, Ne.symm hch⟩)
          rw [if_neg hch]
          simpa using htail
  have hall := hfold ⟨[], []⟩ (by simp) (by simp)
  simpa [tokenize] using hall

end FFZKit.Util.Mini

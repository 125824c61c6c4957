import FFZKit.Util.Mini

/-!
# What the lines of an INI text mean

A stripped line is ignored, is the header of a section, or is an entry. The
entries of a text, each with the section in force, are its readings: `parse`
inserts them one after the other.
-/

namespace FFZKit.Util.Mini

open FFZKit.Foundations

/-- What a stripped line is to the reader. -/
inductive LineKind
  | ignored
  | header (tag : Bytes)
  | entry (name value : Bytes)
  deriving DecidableEq, Repr

/-- The kind of a line from which the blanks at both ends have been stripped. -/
def lineKind (line : Bytes) : LineKind :=
  if line = [] ∨ line.head? = some semicolon ∨ line.head? = some hash then .ignored
  else if 3 ≤ line.length ∧ line.head? = some lbracket ∧ line.getLast? = some rbracket then
    .header (strip isBlank ((line.drop 1).take (line.length - 2)))
  else .entry (strip isBlank (before equals line)) (strip isBlank (after equals line))

/-- A text that takes one line and that `trim` leaves as it is. -/
structure Plain (s : Bytes) : Prop where
  line : newline ∉ s
  bare : Bare isBlank s
  edged : Edged s

theorem plain_nil : Plain [] where
  line := by simp
  bare := bare_nil
  edged := by decide

theorem plain_strip {s : Bytes} (hline : newline ∉ s) (hedged : Edged (strip isBlank s)) :
    Plain (strip isBlank s) where
  line := fun h => hline (mem_of_mem_strip h)
  bare := bare_strip
  edged := hedged

instance (s : Bytes) : Decidable (Plain s) :=
  decidable_of_iff (newline ∉ s ∧ Bare isBlank s ∧ Edged s)
    ⟨fun h => ⟨h.1, h.2.1, h.2.2⟩, fun h => ⟨h.line, h.bare, h.edged⟩⟩

/-- The symbol of an entry is its section, a dot, and its stripped name. -/
theorem strip_symbol {tag name : Bytes} (htag : Plain tag)
    (hname : ∀ c ∈ name.head?, isBlank c = false) :
    strip isBlank (tag ++ [dot] ++ name) = tag ++ [dot] ++ strip isBlank name := by
  have hback : ∀ c ∈ (tag ++ [dot]).getLast?, isBlank c = false := by
    intro c hc
    obtain rfl : dot = c := by simpa using hc
    decide
  have hfront : ∀ c ∈ (tag ++ [dot] ++ name).head?, isBlank c = false := by
    intro c hc
    cases tag with
    | nil =>
        obtain rfl : dot = c := by simpa using hc
        decide
    | cons d tag => exact htag.bare.front c (by simpa using hc)
  rw [strip_of_front hfront, rdropWhile_append_of_back hback, strip_of_front hname]

theorem edged_symbol {tag name : Bytes} (htag : Plain tag) (hname : name.head? ≠ some 0xFF) :
    Edged (tag ++ [dot] ++ name) ↔ Edged name := by
  have hfront : (tag ++ [dot] ++ name).head? ≠ some 0xFF := by
    cases tag with
    | nil =>
        rw [List.nil_append, List.singleton_append, List.head?_cons]
        decide
    | cons d tag => simpa using htag.edged.1
  have hback : (tag ++ [dot] ++ name).getLast? = some 0xFF ↔ name.getLast? = some 0xFF := by
    rcases List.eq_nil_or_concat name with rfl | ⟨name, c, rfl⟩
    · rw [List.append_nil, List.getLast?_concat]
      decide
    · rw [List.concat_eq_append, ← List.append_assoc, List.getLast?_concat, List.getLast?_concat]
  constructor
  · intro h
    exact ⟨hname, fun hlast => h.2 (hback.mpr hlast)⟩
  · intro h
    exact ⟨hfront, fun hlast => h.2 (hback.mp hlast)⟩

/-- The symbol of an entry line can be read when neither end of its name is byte 255. -/
theorem trim_symbol {tag line : Bytes} (htag : Plain tag) (hbare : Bare isBlank line)
    (hedged : Edged line) : trim (tag ++ [dot] ++ before equals line) =
      if Edged (strip isBlank (before equals line)) then
        some (tag ++ [dot] ++ strip isBlank (before equals line))
      else none := by
  have hfront : ∀ c ∈ (before equals line).head?, isBlank c = false := fun c hc =>
    hbare.front c (head?_before hc)
  have hhead : (strip isBlank (before equals line)).head? ≠ some 0xFF := by
    rw [head?_strip_of_front hfront]
    exact fun h => hedged.1 (head?_before h)
  rw [trim_eq, strip_symbol htag hfront]
  simp only [edged_symbol htag hhead]

/-- The effect of a line on the reader. It depends on the kind of the stripped
line, and fails when byte 255 is left at an end of what is stripped. -/
theorem parseLine_eq {st : Reader} (htag : Plain st.tag) (line : Bytes) : parseLine st line =
    if Edged (strip isBlank line) then
      match lineKind (strip isBlank line) with
      | .ignored => some st
      | .header tag => if Edged tag then some { st with tag := tag } else none
      | .entry name value =>
          if Edged name ∧ Edged value then
            some { st with map := st.map.insert (st.tag ++ [dot] ++ name) value }
          else none
    else none := by
  rw [parseLine, trim_eq]
  by_cases hedged : Edged (strip isBlank line)
  · rw [if_pos hedged, if_pos hedged]
    have hbare : Bare isBlank (strip isBlank line) := bare_strip
    generalize strip isBlank line = line at hedged hbare
    simp only [Option.bind_eq_bind, Option.bind_some, lineKind]
    split
    · rfl
    · split
      · rw [trim_eq]
        by_cases ht : Edged (strip isBlank ((line.drop 1).take (line.length - 2)))
        · simp only [ht, if_true, Option.bind_some]
          rfl
        · simp only [ht, if_false, Option.bind_none]
      · rw [idxOf?_eq]
        have hsymbol := trim_symbol htag hbare hedged
        by_cases heq : equals ∈ line
        · rw [if_pos heq]
          simp only [take_before heq, drop_before heq, hsymbol, trim_eq]
          by_cases hn : Edged (strip isBlank (before equals line))
          · by_cases hv : Edged (strip isBlank (after equals line))
            · simp [hn, hv]
            · simp [hn, hv]
          · simp [hn]
        · rw [before_of_notMem heq] at hsymbol
          have hempty : strip isBlank (after equals line) = [] := by
            rw [after_of_notMem heq]
            rfl
          rw [if_neg heq, hempty, before_of_notMem heq]
          simp only [hsymbol]
          by_cases hn : Edged (strip isBlank line)
          · simp [hn, plain_nil.edged]
          · simp [hn]
  · rw [if_neg hedged, if_neg hedged]
    rfl

/-! ### Readings -/

/-- An entry line with the section in force. -/
structure Reading where
  tag : Bytes
  name : Bytes
  value : Bytes
  deriving DecidableEq, Repr

/-- The key of a reading: its section, a dot and its name. -/
def Reading.key (r : Reading) : Bytes := r.tag ++ [dot] ++ r.name

def Reading.pair (r : Reading) : Bytes × Bytes := (r.key, r.value)

/-- The readings of lines that follow a section header. -/
def readings (tag : Bytes) : List Bytes → List Reading
  | [] => []
  | line :: lines =>
      match lineKind (strip isBlank line) with
      | .ignored => readings tag lines
      | .header next => readings next lines
      | .entry name value => ⟨tag, name, value⟩ :: readings tag lines

/-- The readings of a text. -/
def textReadings (text : Bytes) : List Reading := readings [] (text.splitOn newline)

/-- What every reading of a text that can be parsed satisfies. -/
structure Readable (r : Reading) : Prop where
  tag : Plain r.tag
  name : Plain r.name
  value : Plain r.value
  noEquals : equals ∉ r.name
  noComment : r.name.head? ≠ some semicolon ∧ r.name.head? ≠ some hash
  noHeader : ¬ (r.name.head? = some lbracket ∧ r.value.getLast? = some rbracket)

instance (r : Reading) : Decidable (Readable r) :=
  decidable_of_iff (Plain r.tag ∧ Plain r.name ∧ Plain r.value ∧ equals ∉ r.name ∧
      (r.name.head? ≠ some semicolon ∧ r.name.head? ≠ some hash) ∧
      ¬ (r.name.head? = some lbracket ∧ r.value.getLast? = some rbracket))
    ⟨fun ⟨h1, h2, h3, h4, h5, h6⟩ => ⟨h1, h2, h3, h4, h5, h6⟩,
      fun ⟨h1, h2, h3, h4, h5, h6⟩ => ⟨h1, h2, h3, h4, h5, h6⟩⟩

/-- An empty line has no effect. -/
theorem parseLine_nil (st : Reader) : parseLine st [] = some st := rfl

theorem foldlM_filter (lines : List Bytes) (st : Reader) :
    (lines.filter (· ≠ [])).foldlM parseLine st = lines.foldlM parseLine st := by
  induction lines generalizing st with
  | nil => rfl
  | cons line lines ih =>
      by_cases hline : line = []
      · rw [List.filter_cons_of_neg (by simpa using hline), hline, ih, List.foldlM_cons,
          parseLine_nil]
        rfl
      · rw [List.filter_cons_of_pos (by simpa using hline), List.foldlM_cons, List.foldlM_cons]
        simp only [ih]

/-- `parse` goes through the lines of the text. -/
theorem parse_eq (m : MINI) (text : Bytes) :
    parse m text = ((text.splitOn newline).foldlM parseLine ⟨[], m⟩).map Reader.map := by
  rw [parse, tokenize_newline]
  simp only [Option.bind_eq_bind, Option.bind_some, foldlM_filter, Option.pure_def,
    Option.map_eq_bind]
  rfl

/-- What a stripped line that is an entry consists of. -/
theorem lineKind_entry {line name value : Bytes} (h : lineKind line = .entry name value) :
    name = strip isBlank (before equals line) ∧ value = strip isBlank (after equals line) ∧
      line.head? ≠ some semicolon ∧ line.head? ≠ some hash ∧
      ¬ (3 ≤ line.length ∧ line.head? = some lbracket ∧ line.getLast? = some rbracket) := by
  rw [lineKind] at h
  split at h
  · cases h
  · rename_i hignored
    split at h
    · cases h
    · rename_i hheader
      cases h
      simp only [not_or] at hignored
      exact ⟨rfl, rfl, hignored.2.1, hignored.2.2, hheader⟩

/-- What a stripped line that is a header consists of. -/
theorem lineKind_header {line tag : Bytes} (h : lineKind line = .header tag) :
    tag = strip isBlank ((line.drop 1).take (line.length - 2)) := by
  rw [lineKind] at h
  split at h
  · cases h
  · split at h
    · cases h
      rfl
    · cases h

/-- An entry line that is read without a throw gives a readable entry. -/
theorem readable_entry {tag line name value : Bytes} (htag : Plain tag)
    (hline : newline ∉ line) (hbare : Bare isBlank line)
    (hkind : lineKind line = .entry name value) (hname : Edged name) (hvalue : Edged value) :
    Readable ⟨tag, name, value⟩ := by
  obtain ⟨rfl, rfl, hsemicolon, hhash, hheader⟩ := lineKind_entry hkind
  have hfront : ∀ c ∈ (before equals line).head?, isBlank c = false := fun c hc =>
    hbare.front c (head?_before hc)
  have hhead : (strip isBlank (before equals line)).head? = (before equals line).head? :=
    head?_strip_of_front hfront
  refine ⟨htag, plain_strip (fun h => hline (mem_of_mem_before h)) hname,
    plain_strip (fun h => hline (mem_of_mem_after h)) hvalue,
    fun h => notMem_before (mem_of_mem_strip h), ⟨?_, ?_⟩, ?_⟩
  · rw [hhead]
    exact fun h => hsemicolon (head?_before h)
  · rw [hhead]
    exact fun h => hhash (head?_before h)
  · rw [hhead]
    rintro ⟨hopen, hclose⟩
    have hback : after equals line ≠ [] := by
      intro hnil
      rw [hnil] at hclose
      cases hclose
    have hlast := getLast?_after hback
    rw [getLast?_strip_of_back (by rw [hlast]; exact hbare.back), hlast] at hclose
    have hmem : equals ∈ line := by
      by_contra hnot
      exact hback (after_of_notMem hnot)
    have hlength := congrArg List.length (before_append_after hmem)
    have hbefore : 0 < (before equals line).length := by
      rw [List.length_pos_iff]
      intro hnil
      rw [hnil] at hopen
      cases hopen
    have hafter := List.length_pos_iff.mpr hback
    rw [List.length_append, List.length_cons] at hlength
    exact hheader ⟨by omega, head?_before hopen, hclose⟩

/-- What a line does to the reader, and which reading it adds. -/
theorem parseLine_readings {st st' : Reader} (htag : Plain st.tag) {line : Bytes}
    (hline : newline ∉ line) (h : parseLine st line = some st') (lines : List Bytes) :
    Plain st'.tag ∧ ∃ rs, readings st.tag (line :: lines) = rs ++ readings st'.tag lines ∧
      st'.map = st.map.insertMany (rs.map Reading.pair) ∧ ∀ r ∈ rs, Readable r := by
  rw [parseLine_eq htag] at h
  have hstripped : newline ∉ strip isBlank line := fun hmem => hline (mem_of_mem_strip hmem)
  split at h
  · rename_i hedged
    cases hkind : lineKind (strip isBlank line) with
    | ignored =>
        rw [hkind] at h
        cases h
        exact ⟨htag, [], by simp [readings, hkind], by simp, by simp⟩
    | header tag =>
        rw [hkind] at h
        simp only [Option.ite_none_right_eq_some, Option.some.injEq] at h
        obtain ⟨hnext, rfl⟩ := h
        refine ⟨?_, [], by simp [readings, hkind], by simp, by simp⟩
        obtain rfl := lineKind_header hkind
        apply plain_strip _ hnext
        exact fun hmem => hstripped (List.mem_of_mem_drop (List.mem_of_mem_take hmem))
    | entry name value =>
        rw [hkind] at h
        simp only [Option.ite_none_right_eq_some, Option.some.injEq] at h
        obtain ⟨⟨hname, hvalue⟩, rfl⟩ := h
        refine ⟨htag, [⟨st.tag, name, value⟩], by simp [readings, hkind], ?_, ?_⟩
        · exact Std.ExtTreeMap.insertMany_list_singleton.symm
        · rintro r hr
          rw [List.mem_singleton.mp hr]
          exact readable_entry htag hstripped bare_strip hkind hname hvalue
  · cases h

/-- Lines that are read without a throw insert their readings. -/
theorem parseLines_readings {lines : List Bytes} {st st' : Reader} (htag : Plain st.tag)
    (hlines : ∀ line ∈ lines, newline ∉ line) (h : lines.foldlM parseLine st = some st') :
    st'.map = st.map.insertMany ((readings st.tag lines).map Reading.pair) ∧
      ∀ r ∈ readings st.tag lines, Readable r := by
  induction lines generalizing st with
  | nil =>
      cases h
      simp [readings]
  | cons line lines ih =>
      rw [List.foldlM_cons, Option.bind_eq_bind, Option.bind_eq_some_iff] at h
      obtain ⟨mid, hfirst, hrest⟩ := h
      obtain ⟨hmid, rs, hreadings, hmap, hreadable⟩ :=
        parseLine_readings htag (hlines line (by simp)) hfirst lines
      obtain ⟨hmap', hreadable'⟩ := ih hmid (fun l hl => hlines l (by simp [hl])) hrest
      constructor
      · rw [hmap', hmap, hreadings, List.map_append, Std.ExtTreeMap.insertMany_append]
      · intro r hr
        rw [hreadings, List.mem_append] at hr
        rcases hr with hr | hr
        · exact hreadable r hr
        · exact hreadable' r hr

/-- A text that is parsed without a throw inserts its readings. -/
theorem parse_textReadings {m m' : MINI} {text : Bytes} (h : parse m text = some m') :
    m' = m.insertMany ((textReadings text).map Reading.pair) ∧
      ∀ r ∈ textReadings text, Readable r := by
  rw [parse_eq, Option.map_eq_some_iff] at h
  obtain ⟨st, hst, rfl⟩ := h
  exact parseLines_readings plain_nil (fun line hl => notMem_of_mem_splitOn hl) hst

end FFZKit.Util.Mini

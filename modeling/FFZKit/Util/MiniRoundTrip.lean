import FFZKit.Foundations.MapList
import FFZKit.Util.MiniLines
import Mathlib.Data.List.Perm.Basic
import Mathlib.Data.List.Nodup

/-!
# `parse` after `dump`

`dump` writes lines: the header, the entries without a section, the other
entries under the headers of their sections, and the footer. The reader is
led through them one line at a time. Its tag agrees with the tag of the
writer, so every well-formed entry is inserted under its own key.
-/

namespace FFZKit.Util.Mini

open FFZKit.Foundations

abbrev cr : UInt8 := '\r'.toUInt8

/-- Lines as `dump` ends them. -/
def render (lines : List Bytes) : Bytes := lines.flatMap (· ++ crlf)

/-- An entry of the map, split as `dump` splits it. -/
def entryReading (pr : Bytes × Bytes) : Reading := ⟨(splitKey pr.1).1, (splitKey pr.1).2, pr.2⟩

/-- The line of an entry. -/
def Reading.line (r : Reading) : Bytes := r.name ++ [equals] ++ r.value

/-- The line of a section. -/
def headerLine (tag : Bytes) : Bytes := [lbracket] ++ tag ++ [rbracket]

/-- The lines of the entries without a section, which are written first. -/
def frontLines : List Reading → List Bytes
  | [] => []
  | r :: rs => if r.tag = [] then r.line :: frontLines rs else frontLines rs

/-- The lines of the other entries, after a line of the section `tag`. -/
def outputLines (tag : Bytes) : List Reading → List Bytes
  | [] => []
  | r :: rs =>
      if r.tag = [] then outputLines tag rs
      else if tag ≠ r.tag then [] :: headerLine r.tag :: r.line :: outputLines r.tag rs
      else r.line :: outputLines tag rs

/-- All lines of a dump. -/
def dumpLines (header footer : Bytes) (rs : List Reading) : List Bytes :=
  header :: (frontLines rs ++ (outputLines [] rs ++ [[], footer]))

theorem render_cons (line : Bytes) (lines : List Bytes) :
    render (line :: lines) = line ++ crlf ++ render lines :=
  List.flatMap_cons ..

theorem render_append (lines lines' : List Bytes) :
    render (lines ++ lines') = render lines ++ render lines' :=
  List.flatMap_append ..

theorem dump_front (es : List (Bytes × Bytes)) (st : Writer) : (es.foldl dumpEntry st).front =
    st.front ++ render (frontLines (es.map entryReading)) := by
  induction es generalizing st with
  | nil => simp [frontLines, render]
  | cons pr es ih =>
      rw [List.foldl_cons, ih, List.map_cons, frontLines]
      by_cases htag : (entryReading pr).tag = []
      · have hkv : (splitKey pr.1).1 = [] := htag
        simp [dumpEntry, hkv, render_cons, Reading.line, entryReading]
      · have hkv : ¬ (splitKey pr.1).1 = [] := htag
        rw [if_neg htag, dumpEntry]
        simp only [hkv, if_false]
        split <;> rfl

theorem dump_output (es : List (Bytes × Bytes)) (st : Writer) : (es.foldl dumpEntry st).output =
    st.output ++ render (outputLines st.tag (es.map entryReading)) := by
  induction es generalizing st with
  | nil => simp [outputLines, render]
  | cons pr es ih =>
      rw [List.foldl_cons, ih, List.map_cons, outputLines]
      by_cases htag : (entryReading pr).tag = []
      · have hkv : (splitKey pr.1).1 = [] := htag
        simp [dumpEntry, htag, hkv]
      · have hkv : ¬ (splitKey pr.1).1 = [] := htag
        rw [if_neg htag, dumpEntry]
        simp only [hkv, if_false]
        by_cases hsame : st.tag = (splitKey pr.1).1
        · simp [hsame, render_cons, Reading.line, entryReading]
        · simp [hsame, render_cons, Reading.line, entryReading, headerLine]

/-- A dump is its lines. -/
theorem dump_eq (m : MINI) {header footer : Bytes} (hheader : header ≠ []) (hfooter : footer ≠ []) :
    dump m header footer = render (dumpLines header footer (m.toList.map entryReading)) := by
  rw [dump]
  simp only [dump_front, dump_output, if_neg hheader, if_neg hfooter, dumpLines, render_cons,
    render_append, List.append_assoc, List.nil_append]
  simp [render]

/-- Reading the rendered lines goes through them, each with its `\r`. -/
theorem splitOn_render {lines : List Bytes} (h : ∀ line ∈ lines, newline ∉ line) :
    (render lines).splitOn newline = lines.map (· ++ [cr]) ++ [[]] := by
  induction lines with
  | nil => rfl
  | cons line lines ih =>
      have hline : newline ∉ line ++ [cr] := by
        simp only [List.mem_append, List.mem_singleton, not_or]
        exact ⟨h line (by simp), by decide⟩
      have hcut : render (line :: lines) = (line ++ [cr]) ++ newline :: render lines := by
        rw [render_cons]
        simp [crlf, ascii, cr, newline]
      rw [hcut, List.splitOn_append_cons_self_of_not_mem hline, ih fun l hl => h l (by simp [hl])]
      rfl

theorem parse_render {lines : List Bytes} (h : ∀ line ∈ lines, newline ∉ line) (m : MINI) :
    parse m (render lines) =
      ((lines.map (· ++ [cr])).foldlM parseLine ⟨[], m⟩).map Reader.map := by
  rw [parse_eq, splitOn_render h, List.foldlM_append]
  simp only [List.foldlM_cons, List.foldlM_nil, parseLine_nil, Option.bind_eq_bind,
    Option.pure_def, Option.bind_fun_some]

/-- A `\r` at the end of a line is a blank. -/
theorem strip_cr (line : Bytes) : strip isBlank (line ++ [cr]) = strip isBlank line := by
  apply strip_append_of_all
  intro c hc
  rw [List.mem_singleton.mp hc]
  decide

/-- The byte stays when a text that begins or ends with it is trimmed. -/
def Sharp (c : UInt8) : Prop := isBlank c = false ∧ c ≠ 0xFF

instance (c : UInt8) : Decidable (Sharp c) := inferInstanceAs (Decidable (_ ∧ _))

theorem sharp_of_mem_some {c : UInt8} (h : Sharp c) : ∀ d ∈ some c, Sharp d := by
  rintro _ ⟨⟩
  exact h

theorem bare_edged {s : Bytes} (hfront : ∀ c ∈ s.head?, Sharp c)
    (hback : ∀ c ∈ s.getLast?, Sharp c) : Bare isBlank s ∧ Edged s := by
  refine ⟨⟨?_, ?_⟩, ?_, ?_⟩
  · exact fun c hc => (hfront c hc).1
  · exact fun c hc => (hback c hc).1
  · exact fun h => (hfront _ h).2 rfl
  · exact fun h => (hback _ h).2 rfl

theorem Plain.front {s : Bytes} (h : Plain s) : ∀ c ∈ s.head?, Sharp c := by
  intro c hc
  refine ⟨h.bare.front c hc, ?_⟩
  rintro rfl
  exact h.edged.1 hc

theorem Plain.back {s : Bytes} (h : Plain s) : ∀ c ∈ s.getLast?, Sharp c := by
  intro c hc
  refine ⟨h.bare.back c hc, ?_⟩
  rintro rfl
  exact h.edged.2 hc

theorem headerLine_head? (tag : Bytes) : (headerLine tag).head? = some lbracket := rfl

theorem headerLine_getLast? (tag : Bytes) : (headerLine tag).getLast? = some rbracket :=
  List.getLast?_concat

theorem bare_headerLine (tag : Bytes) : Bare isBlank (headerLine tag) ∧ Edged (headerLine tag) := by
  apply bare_edged
  · rw [headerLine_head?]
    exact sharp_of_mem_some (by decide)
  · rw [headerLine_getLast?]
    exact sharp_of_mem_some (by decide)

/-- The line of an entry begins with its name, or with `=`. -/
theorem line_head? (r : Reading) : r.line.head? = some (r.name.head?.getD equals) := by
  cases hname : r.name with
  | nil => simp [Reading.line, hname]
  | cons c name => simp [Reading.line, hname]

/-- The line of an entry ends with its value, or with `=`. -/
theorem line_getLast? (r : Reading) : r.line.getLast? = some (r.value.getLast?.getD equals) := by
  rcases List.eq_nil_or_concat r.value with hvalue | ⟨value, c, hvalue⟩
  · simp [Reading.line, hvalue]
  · rw [Reading.line, hvalue, List.concat_eq_append, ← List.append_assoc,
      List.getLast?_concat, List.getLast?_concat, Option.getD_some]

theorem bare_line {r : Reading} (h : Readable r) : Bare isBlank r.line ∧ Edged r.line := by
  apply bare_edged
  · rw [line_head?]
    cases hname : r.name.head? with
    | none => exact sharp_of_mem_some (by decide)
    | some c => exact sharp_of_mem_some (h.name.front c hname)
  · rw [line_getLast?]
    cases hvalue : r.value.getLast? with
    | none => exact sharp_of_mem_some (by decide)
    | some c => exact sharp_of_mem_some (h.value.back c hvalue)

/-- The line of a section is read as the header of that section. -/
theorem lineKind_headerLine {tag : Bytes} (htag : tag ≠ []) :
    lineKind (strip isBlank (headerLine tag ++ [cr])) = .header (strip isBlank tag) := by
  rw [strip_cr, strip_of_bare (bare_headerLine tag).1]
  have hlength : (headerLine tag).length = tag.length + 2 := by simp [headerLine]
  have hpos := List.length_pos_iff.mpr htag
  have hinner : ((headerLine tag).drop 1).take ((headerLine tag).length - 2) = tag := by
    rw [hlength, Nat.add_sub_cancel]
    exact List.take_left
  rw [lineKind, hinner, if_neg, if_pos]
  · exact ⟨by omega, headerLine_head? tag, headerLine_getLast? tag⟩
  · rw [headerLine_head?]
    have hne : headerLine tag ≠ [] := by simp [headerLine]
    simp only [hne, false_or]
    decide

theorem eq_of_getD_equals {o : Option UInt8} {c : UInt8} (hc : c ≠ equals)
    (h : some (o.getD equals) = some c) : o = some c := by
  cases o with
  | none => exact absurd (Option.some.inj h).symm hc
  | some d => exact h

/-- The line of a readable entry is read as that entry. -/
theorem lineKind_line {r : Reading} (h : Readable r) :
    lineKind (strip isBlank (r.line ++ [cr])) = .entry r.name r.value := by
  rw [strip_cr, strip_of_bare (bare_line h).1]
  have hcut : r.line = r.name ++ equals :: r.value := by simp [Reading.line]
  have hname : before equals r.line = r.name := by rw [hcut, before_append_cons h.noEquals]
  have hvalue : after equals r.line = r.value := by rw [hcut, after_append_cons h.noEquals]
  rw [lineKind, if_neg, if_neg, hname, hvalue, strip_of_bare h.name.bare,
    strip_of_bare h.value.bare]
  · rw [line_head?, line_getLast?]
    rintro ⟨-, hopen, hclose⟩
    exact h.noHeader ⟨eq_of_getD_equals (by decide) hopen, eq_of_getD_equals (by decide) hclose⟩
  · rw [line_head?]
    rintro (hnil | hsemicolon | hhash)
    · simp [hcut] at hnil
    · exact h.noComment.1 (eq_of_getD_equals (by decide) hsemicolon)
    · exact h.noComment.2 (eq_of_getD_equals (by decide) hhash)

/-! ### The reader on the lines of a dump -/

theorem parseLine_line {tag : Bytes} (htag : Plain tag) {r : Reading} (h : Readable r) (m : MINI) :
    parseLine ⟨tag, m⟩ (r.line ++ [cr]) =
      some ⟨tag, m.insert (tag ++ [dot] ++ r.name) r.value⟩ := by
  rw [parseLine_eq htag, lineKind_line h, if_pos]
  · exact if_pos ⟨h.name.edged, h.value.edged⟩
  · rw [strip_cr, strip_of_bare (bare_line h).1]
    exact (bare_line h).2

theorem parseLine_headerLine {tag next : Bytes} (htag : Plain tag) (hnext : Plain next)
    (hne : next ≠ []) (m : MINI) :
    parseLine ⟨tag, m⟩ (headerLine next ++ [cr]) = some ⟨next, m⟩ := by
  rw [parseLine_eq htag, lineKind_headerLine hne, strip_of_bare hnext.bare, if_pos]
  · exact if_pos hnext.edged
  · rw [strip_cr, strip_of_bare (bare_headerLine next).1]
    exact (bare_headerLine next).2

/-- An empty line and the default header and footer are ignored. -/
theorem parseLine_ignored {tag line : Bytes} (htag : Plain tag) (m : MINI)
    (hline : line = [] ∨ line = defaultHeader ∨ line = defaultFooter) :
    parseLine ⟨tag, m⟩ (line ++ [cr]) = some ⟨tag, m⟩ := by
  rw [parseLine_eq htag, strip_cr]
  rcases hline with rfl | rfl | rfl
  · rfl
  · rfl
  · rfl

/-- The reader inserts the entries without a section. -/
theorem parse_frontLines {rs : List Reading} (h : ∀ r ∈ rs, Readable r) (m : MINI) :
    ((frontLines rs).map (· ++ [cr])).foldlM parseLine ⟨[], m⟩ =
      some ⟨[], m.insertMany ((rs.filter (·.tag = [])).map Reading.pair)⟩ := by
  induction rs generalizing m with
  | nil => simp [frontLines]
  | cons r rs ih =>
      have htail := ih fun r' hr' => h r' (by simp [hr'])
      by_cases htag : r.tag = []
      · rw [frontLines, if_pos htag, List.map_cons, List.foldlM_cons,
          parseLine_line plain_nil (h r (by simp)), List.filter_cons_of_pos (by simpa using htag),
          List.map_cons, Reading.pair, Reading.key, htag, Std.ExtTreeMap.insertMany_cons]
        exact htail _
      · rw [frontLines, if_neg htag, List.filter_cons_of_neg (by simpa using htag)]
        exact htail m

/-- The reader inserts the other entries. Its tag is the writer's. -/
theorem parse_outputLines {rs : List Reading} (h : ∀ r ∈ rs, Readable r) {tag : Bytes}
    (htag : Plain tag) (m : MINI) : ∃ tag', Plain tag' ∧
      ((outputLines tag rs).map (· ++ [cr])).foldlM parseLine ⟨tag, m⟩ =
        some ⟨tag', m.insertMany ((rs.filter (·.tag ≠ [])).map Reading.pair)⟩ := by
  induction rs generalizing tag m with
  | nil => exact ⟨tag, htag, by simp [outputLines]⟩
  | cons r rs ih =>
      have hr := h r (by simp)
      have hrs : ∀ r' ∈ rs, Readable r' := fun r' hr' => h r' (by simp [hr'])
      by_cases hempty : r.tag = []
      · rw [outputLines, if_pos hempty, List.filter_cons_of_neg (by simpa using hempty)]
        exact ih hrs htag m
      · have hpair : r.pair = (r.tag ++ [dot] ++ r.name, r.value) := rfl
        rw [outputLines, if_neg hempty, List.filter_cons_of_pos (by simpa using hempty),
          List.map_cons, Std.ExtTreeMap.insertMany_cons]
        obtain ⟨tag', htag', hrest⟩ := ih hrs hr.tag (m.insert r.key r.value)
        refine ⟨tag', htag', ?_⟩
        by_cases hsame : tag = r.tag
        · rw [if_neg (not_not.mpr hsame), List.map_cons, List.foldlM_cons, hsame,
            parseLine_line hr.tag hr]
          exact hrest
        · rw [if_pos hsame, List.map_cons, List.map_cons, List.map_cons, List.foldlM_cons,
            parseLine_ignored htag m (Or.inl rfl), Option.bind_eq_bind, Option.bind_some,
            List.foldlM_cons, parseLine_headerLine htag hr.tag hempty, Option.bind_eq_bind,
            Option.bind_some, List.foldlM_cons, parseLine_line hr.tag hr]
          exact hrest

/-- What `parse` makes of the dump of readable entries. -/
theorem parse_dumpLines {rs : List Reading} (h : ∀ r ∈ rs, Readable r) (m : MINI) :
    ∃ tag, ((dumpLines defaultHeader defaultFooter rs).map (· ++ [cr])).foldlM parseLine ⟨[], m⟩ =
      some ⟨tag, m.insertMany ((rs.filter (·.tag = []) ++ rs.filter (·.tag ≠ [])).map
        Reading.pair)⟩ := by
  obtain ⟨tag, htag, houtput⟩ := parse_outputLines h plain_nil
    (m.insertMany ((rs.filter (·.tag = [])).map Reading.pair))
  refine ⟨tag, ?_⟩
  rw [dumpLines, List.map_cons, List.foldlM_cons,
    parseLine_ignored plain_nil m (Or.inr (Or.inl rfl)),
    Option.bind_eq_bind, Option.bind_some, List.map_append, List.foldlM_append,
    parse_frontLines h, Option.bind_eq_bind, Option.bind_some, List.map_append,
    List.foldlM_append, houtput, Option.bind_eq_bind, Option.bind_some, List.map_append,
    Std.ExtTreeMap.insertMany_append]
  simp only [List.map_cons, List.map_nil, List.foldlM_cons, List.foldlM_nil]
  rw [parseLine_ignored htag _ (Or.inl rfl), Option.bind_eq_bind, Option.bind_some,
    parseLine_ignored htag _ (Or.inr (Or.inr rfl))]
  rfl

theorem mem_frontLines {rs : List Reading} {line : Bytes} (h : line ∈ frontLines rs) :
    ∃ r ∈ rs, line = r.line := by
  induction rs with
  | nil => simp [frontLines] at h
  | cons r rs ih =>
      rw [frontLines] at h
      split at h
      · rcases List.mem_cons.mp h with rfl | h
        · exact ⟨r, by simp, rfl⟩
        · obtain ⟨r', hr', hline⟩ := ih h
          exact ⟨r', by simp [hr'], hline⟩
      · obtain ⟨r', hr', hline⟩ := ih h
        exact ⟨r', by simp [hr'], hline⟩

theorem mem_outputLines {rs : List Reading} {tag line : Bytes} (h : line ∈ outputLines tag rs) :
    line = [] ∨ ∃ r ∈ rs, line = r.line ∨ r.tag ≠ [] ∧ line = headerLine r.tag := by
  induction rs generalizing tag with
  | nil => simp [outputLines] at h
  | cons r rs ih =>
      have hrest : ∀ {tag'}, line ∈ outputLines tag' rs →
          line = [] ∨ ∃ r' ∈ r :: rs, line = r'.line ∨ r'.tag ≠ [] ∧ line = headerLine r'.tag := by
        intro tag' h'
        rcases ih h' with hline | ⟨r', hr', hline⟩
        · exact Or.inl hline
        · exact Or.inr ⟨r', by simp [hr'], hline⟩
      rw [outputLines] at h
      split at h
      · exact hrest h
      · rename_i htag
        split at h
        · simp only [List.mem_cons] at h
          rcases h with rfl | rfl | rfl | h
          · exact Or.inl rfl
          · exact Or.inr ⟨r, by simp, Or.inr ⟨htag, rfl⟩⟩
          · exact Or.inr ⟨r, by simp, Or.inl rfl⟩
          · exact hrest h
        · rcases List.mem_cons.mp h with rfl | h
          · exact Or.inr ⟨r, by simp, Or.inl rfl⟩
          · exact hrest h

/-- Every line of a dump is ignored, or belongs to an entry. -/
theorem mem_dumpLines {header footer : Bytes} {rs : List Reading} {line : Bytes}
    (h : line ∈ dumpLines header footer rs) : line = header ∨ line = footer ∨ line = [] ∨
      ∃ r ∈ rs, line = r.line ∨ r.tag ≠ [] ∧ line = headerLine r.tag := by
  simp only [dumpLines, List.mem_cons, List.mem_append, List.not_mem_nil, or_false] at h
  rcases h with rfl | h | h | rfl | rfl
  · exact Or.inl rfl
  · obtain ⟨r, hr, hline⟩ := mem_frontLines h
    exact Or.inr (Or.inr (Or.inr ⟨r, hr, Or.inl hline⟩))
  · exact Or.inr (Or.inr (mem_outputLines h))
  · exact Or.inr (Or.inr (Or.inl rfl))
  · exact Or.inr (Or.inl rfl)

/-- A reading whose parts take one line. -/
structure OneLine (r : Reading) : Prop where
  tag : newline ∉ r.tag
  name : newline ∉ r.name
  value : newline ∉ r.value

theorem notMem_dumpLines {rs : List Reading} (h : ∀ r ∈ rs, OneLine r) :
    ∀ line ∈ dumpLines defaultHeader defaultFooter rs, newline ∉ line := by
  intro line hline
  rcases mem_dumpLines hline with rfl | rfl | rfl | ⟨r, hr, rfl | ⟨-, rfl⟩⟩
  · decide
  · decide
  · decide
  · have hnot : newline ≠ equals := by decide
    simp [Reading.line, hnot, (h r hr).name, (h r hr).value]
  · have hnot : newline ≠ lbracket ∧ newline ≠ rbracket := by decide
    simp [headerLine, hnot.1, hnot.2, (h r hr).tag]

/-! ### The round trip -/

/-- A key is read back with a dot: a key without one gets it in front. -/
def qualify (key : Bytes) : Bytes := if dot ∈ key then key else dot :: key

/-- An entry is well formed when its section, its name and its value take one
line and keep their ends, and its line cannot be taken for anything else. -/
def WellFormed (pr : Bytes × Bytes) : Prop := Readable (entryReading pr)

instance (pr : Bytes × Bytes) : Decidable (WellFormed pr) :=
  inferInstanceAs (Decidable (Readable _))

theorem key_entryReading (pr : Bytes × Bytes) : (entryReading pr).key = qualify pr.1 := by
  rw [qualify, Reading.key, entryReading, splitKey, idxOf?_eq]
  by_cases h : dot ∈ pr.1
  · rw [if_pos h, if_pos h]
    simp only [take_before h, drop_before h, List.append_assoc, List.singleton_append]
    exact before_append_after h
  · rw [if_neg h, if_neg h]
    rfl

theorem pair_entryReading (pr : Bytes × Bytes) :
    (entryReading pr).pair = (qualify pr.1, pr.2) :=
  Prod.ext (key_entryReading pr) rfl

/-- The pairs that reading a dump inserts, in the order of its lines. -/
def dumpedPairs (m : MINI) : List (Bytes × Bytes) :=
  let rs := m.toList.map entryReading
  (rs.filter (·.tag = []) ++ rs.filter (·.tag ≠ [])).map Reading.pair

theorem parse_dump_eq {m : MINI} (h : ∀ pr ∈ m.toList, WellFormed pr) :
    parse ∅ (dump m defaultHeader defaultFooter) =
      some ((∅ : MINI).insertMany (dumpedPairs m)) := by
  have hreadable : ∀ r ∈ m.toList.map entryReading, Readable r := by
    intro r hr
    obtain ⟨pr, hpr, rfl⟩ := List.mem_map.mp hr
    exact h pr hpr
  have hline : ∀ r ∈ m.toList.map entryReading, OneLine r := fun r hr =>
    ⟨(hreadable r hr).tag.line, (hreadable r hr).name.line, (hreadable r hr).value.line⟩
  obtain ⟨tag, hread⟩ := parse_dumpLines hreadable ∅
  rw [dump_eq m (by decide) (by decide), parse_render (notMem_dumpLines hline), hread]
  rfl

theorem dumpedPairs_perm (m : MINI) :
    (dumpedPairs m).Perm (m.toList.map fun pr => (qualify pr.1, pr.2)) := by
  have hsplit : ∀ rs : List Reading,
      (rs.filter (·.tag = []) ++ rs.filter (·.tag ≠ [])).Perm rs := by
    intro rs
    simpa using List.filter_append_perm (fun r : Reading => decide (r.tag = [])) rs
  have hpairs : (m.toList.map entryReading).map Reading.pair =
      m.toList.map fun pr => (qualify pr.1, pr.2) := by
    rw [List.map_map]
    exact List.map_congr_left fun pr _ => pair_entryReading pr
  rw [← hpairs]
  exact (hsplit _).map Reading.pair

theorem mem_of_mem_keys {m : MINI} {k : Bytes} (h : k ∈ m.toList.map Prod.fst) : k ∈ m := by
  obtain ⟨⟨_, v⟩, hpr, rfl⟩ := List.mem_map.mp h
  rw [Std.ExtTreeMap.mem_toList_iff_getElem?_eq_some] at hpr
  rw [Std.ExtTreeMap.mem_iff_isSome_getElem?, hpr]
  rfl

/-- Two keys of a map are read back as one only if they are `x` and `.x`. -/
theorem qualify_injOn {m : MINI} (hdots : ∀ k ∈ m, dot ∉ k → dot :: k ∉ m) {j k : Bytes}
    (hj : j ∈ m) (hk : k ∈ m) (h : qualify j = qualify k) : j = k := by
  rw [qualify, qualify] at h
  split at h
  · split at h
    · exact h
    · rename_i hdot
      exact absurd (h ▸ hj) (hdots k hk hdot)
  · rename_i hdot
    split at h
    · exact absurd (h ▸ hk) (hdots j hj hdot)
    · exact (List.cons.inj h).2

theorem getElem?_dumpedPairs {m : MINI} (hdots : ∀ k ∈ m, dot ∉ k → dot :: k ∉ m) (k v : Bytes) :
    ((∅ : MINI).insertMany (dumpedPairs m))[k]? = some v ↔
      ∃ j, qualify j = k ∧ m[j]? = some v := by
  have hperm := dumpedPairs_perm m
  have hnodup : ((dumpedPairs m).map Prod.fst).Nodup := by
    have hkeys : (m.toList.map fun pr => (qualify pr.1, pr.2)).map Prod.fst =
        (m.toList.map Prod.fst).map qualify := by
      rw [List.map_map, List.map_map]
      rfl
    rw [(hperm.map Prod.fst).nodup_iff, hkeys]
    apply List.Nodup.map_on _ nodup_keys_toList
    intro j hj k hk
    exact qualify_injOn hdots (mem_of_mem_keys hj) (mem_of_mem_keys hk)
  rw [getElem?_insertMany_iff hnodup, hperm.mem_iff, List.mem_map]
  constructor
  · rintro ⟨⟨j, w⟩, hmem, heq⟩
    obtain ⟨hkey, hvalue⟩ := Prod.mk.inj heq
    exact ⟨j, hkey, Std.ExtTreeMap.mem_toList_iff_getElem?_eq_some.mp (hvalue ▸ hmem)⟩
  · rintro ⟨j, hkey, hget⟩
    exact ⟨(j, v), Std.ExtTreeMap.mem_toList_iff_getElem?_eq_some.mpr hget, by rw [hkey]⟩

/-- Parsing the dump of a map of well-formed entries into an empty map gives
the map back, with a dot in front of the keys that have none. -/
theorem parse_dump {m : MINI} (hentries : ∀ pr ∈ m.toList, WellFormed pr)
    (hdots : ∀ k ∈ m, dot ∉ k → dot :: k ∉ m) :
    ∃ m', parse ∅ (dump m defaultHeader defaultFooter) = some m' ∧
      ∀ k v, m'[k]? = some v ↔ ∃ j, qualify j = k ∧ m[j]? = some v :=
  ⟨_, parse_dump_eq hentries, getElem?_dumpedPairs hdots⟩

/-- A dot-free key, an empty section name, an empty entry name and an empty value. -/
def mixedEntries : MINI :=
  (((∅ : MINI).insert (ascii "no-dot") (ascii "1")).insert (ascii ".dot") []).insert
    (ascii "s.multi.dot") (ascii "a=b]") |>.insert (ascii "s.") (ascii "x y")

theorem parse_dump_mixedEntries :
    ∃ m', parse ∅ (dump mixedEntries defaultHeader defaultFooter) = some m' ∧
      m'[ascii ".no-dot"]? = some (ascii "1") := by
  obtain ⟨m', hparse, hget⟩ := parse_dump (m := mixedEntries) (by decide) (by
    have hkeys : ∀ k ∈ mixedEntries.keys, dot ∉ k → dot :: k ∉ mixedEntries.keys := by decide
    intro k hk hdot hmem
    exact hkeys k (Std.ExtTreeMap.mem_keys.mpr hk) hdot (Std.ExtTreeMap.mem_keys.mpr hmem))
  exact ⟨m', hparse, (hget _ _).mpr ⟨ascii "no-dot", by decide, by decide⟩⟩

end FFZKit.Util.Mini

import FFZKit.Util.MiniRoundTrip

/-!
# Saving a loaded configuration

A key of a parsed text is the section in force, a dot and the entry name.
`dump` splits it at its first dot, which lies inside the section when the
section contains one. The rest of the section then moves to the line of the
entry, where it is read by other rules.
-/

namespace FFZKit.Util.Mini

open FFZKit.Foundations

/-- An entry whose section, when it contains a dot, may be cut there: the part
before the dot does not end in what is trimmed, and the part after it begins
the line of an entry and leaves the `=` of the entry the first one. -/
def Keeps (r : Reading) : Prop :=
  dot ∈ r.tag → (∀ c ∈ (before dot r.tag).getLast?, Sharp c) ∧
    equals ∉ after dot r.tag ∧
    (∀ c ∈ (after dot r.tag).head?, Sharp c ∧ c ≠ semicolon ∧ c ≠ hash) ∧
    ¬ ((after dot r.tag).head? = some lbracket ∧ r.value.getLast? = some rbracket)

/-- Every entry of the text that is the last one for its key may be cut. -/
def Savable (text : Bytes) : Prop :=
  ∀ front r back, textReadings text = front ++ r :: back →
    (∀ r' ∈ back, r'.key ≠ r.key) → Keeps r

theorem entryReading_of_notMem {r : Reading} (h : dot ∉ r.tag) : entryReading r.pair = r := by
  have hkey : r.key = r.tag ++ dot :: r.name := by simp [Reading.key]
  have hmem : dot ∈ r.key := by simp [hkey]
  rw [entryReading, splitKey, Reading.pair]
  simp only [idxOf?_eq, if_pos hmem, take_before hmem, drop_before hmem]
  rw [hkey, before_append_cons h, after_append_cons h]

theorem entryReading_of_mem {r : Reading} (h : dot ∈ r.tag) : entryReading r.pair =
    ⟨before dot r.tag, after dot r.tag ++ dot :: r.name, r.value⟩ := by
  have hcut := before_append_after h
  have hkey : r.key = before dot r.tag ++ dot :: (after dot r.tag ++ dot :: r.name) := by
    rw [Reading.key]
    nth_rewrite 1 [← hcut]
    simp
  have hmem : dot ∈ r.key := by simp [hkey]
  rw [entryReading, splitKey, Reading.pair]
  simp only [idxOf?_eq, if_pos hmem, take_before hmem, drop_before hmem]
  rw [hkey, before_append_cons notMem_before, after_append_cons notMem_before]

theorem plain_iff {s : Bytes} : Plain s ↔
    newline ∉ s ∧ (∀ c ∈ s.head?, Sharp c) ∧ ∀ c ∈ s.getLast?, Sharp c := by
  constructor
  · intro h
    exact ⟨h.line, h.front, h.back⟩
  · rintro ⟨hline, hfront, hback⟩
    obtain ⟨hbare, hedged⟩ := bare_edged hfront hback
    exact ⟨hline, hbare, hedged⟩

/-- What begins the rest of a section begins the line of its entry. -/
theorem head?_rest (b name : Bytes) : (b ++ dot :: name).head? = some (b.head?.getD dot) := by
  cases b with
  | nil => rfl
  | cons c b => rfl

theorem plain_section {tag : Bytes} (h : Plain tag) :
    Plain (before dot tag) ↔ ∀ c ∈ (before dot tag).getLast?, Sharp c := by
  rw [plain_iff]
  constructor
  · exact fun hplain => hplain.2.2
  · intro hback
    exact ⟨fun hmem => h.line (mem_of_mem_before hmem),
      fun c hc => h.front c (head?_before hc), hback⟩

theorem plain_rest {b name : Bytes} (hb : newline ∉ b) (hname : Plain name) :
    Plain (b ++ dot :: name) ↔ ∀ c ∈ b.head?, Sharp c := by
  have hdot : Sharp dot := by decide
  rw [plain_iff, head?_rest]
  constructor
  · rintro ⟨-, hfront, -⟩ c hc
    apply hfront c
    rw [hc]
    rfl
  · intro hfront
    refine ⟨?_, ?_, ?_⟩
    · have hnot : newline ≠ dot := by decide
      simp [hb, hnot, hname.line]
    · rintro _ ⟨⟩
      cases hc : b.head? with
      | none => exact hdot
      | some c => exact hfront c hc
    · rw [List.getLast?_append_cons, List.getLast?_cons]
      rintro _ ⟨⟩
      cases hc : name.getLast? with
      | none => exact hdot
      | some c => exact hname.back c hc

/-- A readable entry is well formed in the map exactly when it may be cut. -/
theorem wellFormed_pair_iff {r : Reading} (h : Readable r) : WellFormed r.pair ↔ Keeps r := by
  rw [WellFormed]
  by_cases hdot : dot ∈ r.tag
  · have hb : newline ∉ after dot r.tag := fun hmem => h.tag.line (mem_of_mem_after hmem)
    have hequals : equals ∉ after dot r.tag ++ dot :: r.name ↔ equals ∉ after dot r.tag := by
      have hnot : equals ≠ dot := by decide
      simp [hnot, h.noEquals]
    have hhead : ∀ {c : UInt8}, c ≠ dot → (some ((after dot r.tag).head?.getD dot) = some c ↔
        (after dot r.tag).head? = some c) := by
      intro c hc
      cases (after dot r.tag).head? with
      | none => simpa using hc.symm
      | some d => rfl
    rw [entryReading_of_mem hdot]
    constructor
    · intro hwell _
      have hfront := (plain_rest hb h.name).mp hwell.name
      refine ⟨(plain_section h.tag).mp hwell.tag, hequals.mp hwell.noEquals, ?_, ?_⟩
      · intro c hc
        have hcomment := hwell.noComment
        simp only [head?_rest, ne_eq, hhead (show semicolon ≠ dot by decide),
          hhead (show hash ≠ dot by decide)] at hcomment
        exact ⟨hfront c hc, fun heq => hcomment.1 (heq ▸ hc), fun heq => hcomment.2 (heq ▸ hc)⟩
      · have hheader := hwell.noHeader
        simpa only [head?_rest, hhead (show lbracket ≠ dot by decide)] using hheader
    · intro hkeeps
      obtain ⟨hback, hnone, hfront, hheader⟩ := hkeeps hdot
      refine ⟨(plain_section h.tag).mpr hback,
        (plain_rest hb h.name).mpr fun c hc => (hfront c hc).1, h.value, hequals.mpr hnone, ?_, ?_⟩
      · simp only [head?_rest, ne_eq, hhead (show semicolon ≠ dot by decide),
          hhead (show hash ≠ dot by decide)]
        exact ⟨fun hc => (hfront _ hc).2.1 rfl, fun hc => (hfront _ hc).2.2 rfl⟩
      · simpa only [head?_rest, hhead (show lbracket ≠ dot by decide)] using hheader
  · rw [entryReading_of_notMem hdot]
    exact ⟨fun _ hmem => absurd hmem hdot, fun _ => h⟩

/-- The line is read as an entry. -/
def isEntry (line : Bytes) : Bool :=
  match lineKind (strip isBlank line) with
  | .entry _ _ => true
  | _ => false

theorem length_readings (tag : Bytes) (lines : List Bytes) :
    (readings tag lines).length = lines.countP isEntry := by
  induction lines generalizing tag with
  | nil => rfl
  | cons line lines ih =>
      rw [readings, List.countP_cons, isEntry]
      cases lineKind (strip isBlank line) with
      | ignored => exact ih tag
      | header next => exact ih next
      | entry name value => simp [ih]

/-- A property of the section names of a text holds of the sections of its entries. -/
theorem readings_tag {P : Bytes → Prop} {tag : Bytes} {lines : List Bytes} (htag : P tag)
    (h : ∀ line ∈ lines, ∀ next, lineKind (strip isBlank line) = .header next → P next) :
    ∀ r ∈ readings tag lines, P r.tag := by
  induction lines generalizing tag with
  | nil => simp [readings]
  | cons line lines ih =>
      have hrest : ∀ l ∈ lines, ∀ next, lineKind (strip isBlank l) = .header next → P next :=
        fun l hl => h l (by simp [hl])
      rw [readings]
      cases hkind : lineKind (strip isBlank line) with
      | ignored => exact ih htag hrest
      | header next => exact ih (h line (by simp) next hkind) hrest
      | entry name value =>
          intro r hr
          rcases List.mem_cons.mp hr with rfl | hr
          · exact htag
          · exact ih htag hrest r hr

theorem isEntry_nil : isEntry ([] ++ [cr]) = false := rfl

theorem isEntry_headerLine {tag : Bytes} (htag : tag ≠ []) :
    isEntry (headerLine tag ++ [cr]) = false := by
  rw [isEntry, lineKind_headerLine htag]

/-- Only the lines of the entries can be read as entries. -/
theorem countP_dumped (tag : Bytes) (rs : List Reading) :
    (frontLines rs).countP (fun line => isEntry (line ++ [cr])) +
      (outputLines tag rs).countP (fun line => isEntry (line ++ [cr])) =
        rs.countP fun r => isEntry (r.line ++ [cr]) := by
  induction rs generalizing tag with
  | nil => rfl
  | cons r rs ih =>
      rw [frontLines, outputLines, List.countP_cons]
      by_cases hempty : r.tag = []
      · rw [if_pos hempty, if_pos hempty, List.countP_cons, ← ih tag]
        omega
      · rw [if_neg hempty, if_neg hempty, ← ih r.tag]
        by_cases hsame : tag = r.tag
        · rw [if_neg (not_not.mpr hsame), List.countP_cons, hsame]
          omega
        · rw [if_pos hsame, List.countP_cons, List.countP_cons, List.countP_cons,
            isEntry_nil, isEntry_headerLine hempty]
          simp only [Bool.false_eq_true, if_false]
          omega

/-- Among the lines of a dump, only those of the entries can be read as entries. -/
theorem countP_dumpLines (rs : List Reading) :
    ((dumpLines defaultHeader defaultFooter rs).map (· ++ [cr]) ++ [[]]).countP isEntry =
      rs.countP fun r => isEntry (r.line ++ [cr]) := by
  have hheader : isEntry (defaultHeader ++ [cr]) = false := by decide
  have hfooter : isEntry (defaultFooter ++ [cr]) = false := by decide
  have hlast : isEntry [] = false := rfl
  rw [← countP_dumped [] rs, dumpLines]
  simp only [List.map_cons, List.map_append, List.map_nil, List.countP_cons, List.countP_append,
    List.countP_nil, List.countP_map, Function.comp_def, hheader, hfooter, hlast, isEntry_nil]
  simp

/-- An entry of a parsed map is the last reading of its key. -/
theorem exists_last_reading {rs : List Reading} {k v : Bytes}
    (h : ((∅ : MINI).insertMany (rs.map Reading.pair))[k]? = some v) :
    ∃ front r back, rs = front ++ r :: back ∧ r.pair = (k, v) ∧ ∀ r' ∈ back, r'.key ≠ r.key := by
  obtain ⟨front, back, hsplit, hlast⟩ := exists_last_of_insertMany h
  obtain ⟨front', rest, rfl, rfl, hrest⟩ := List.map_eq_append_iff.mp hsplit
  obtain ⟨r, back', rfl, hr, rfl⟩ := List.map_eq_cons_iff.mp hrest
  refine ⟨front', r, back', rfl, hr, fun r' hr' hkey => ?_⟩
  apply hlast r'.value
  refine List.mem_map.mpr ⟨r', hr', ?_⟩
  have hk : r.key = k := congrArg Prod.fst hr
  rw [Reading.pair, hkey, hk]

theorem getElem?_last_reading {front back : List Reading} {r : Reading}
    (h : ∀ r' ∈ back, r'.key ≠ r.key) :
    ((∅ : MINI).insertMany ((front ++ r :: back).map Reading.pair))[r.key]? = some r.value := by
  rw [List.map_append, List.map_cons]
  apply insertMany_last
  intro w hw
  obtain ⟨r', hr', hpair⟩ := List.mem_map.mp hw
  exact h r' hr' (congrArg Prod.fst hpair)

/-- The parts of a split key are parts of the key. -/
theorem mem_of_mem_splitKey {key : Bytes} {c : UInt8}
    (h : c ∈ (splitKey key).1 ∨ c ∈ (splitKey key).2) : c ∈ key := by
  rw [splitKey] at h
  split at h
  · rcases h with h | h
    · cases h
    · exact h
  · rcases h with h | h
    · exact List.mem_of_mem_take h
    · exact List.mem_of_mem_drop h

theorem notMem_splitKey (key : Bytes) : dot ∉ (splitKey key).1 := by
  rw [splitKey, idxOf?_eq]
  by_cases h : dot ∈ key
  · simp only [if_pos h, take_before h]
    exact notMem_before
  · simp [if_neg h]

/-- An entry of a parsed map takes one line. -/
theorem oneLine_of_readable {r : Reading} (h : Readable r) : OneLine (entryReading r.pair) := by
  have hkey : newline ∉ r.key := by
    have hnot : newline ≠ dot := by decide
    simp [Reading.key, h.tag.line, hnot, h.name.line]
  exact ⟨fun hmem => hkey (mem_of_mem_splitKey (Or.inl hmem)),
    fun hmem => hkey (mem_of_mem_splitKey (Or.inr hmem)), h.value.line⟩

/-- When every line of an entry is read as an entry, the sections that are
read are those of the dump, which contain no dot. -/
theorem header_dotless {es : List (Bytes × Bytes)}
    (h : ∀ r ∈ es.map entryReading, isEntry (r.line ++ [cr]) = true) :
    ∀ line ∈ (dumpLines defaultHeader defaultFooter (es.map entryReading)).map (· ++ [cr]) ++ [[]],
      ∀ next, lineKind (strip isBlank line) = .header next → dot ∉ next := by
  intro line hmem next hkind
  rcases List.mem_append.mp hmem with hmem | hmem
  · obtain ⟨l, hl, rfl⟩ := List.mem_map.mp hmem
    rcases mem_dumpLines hl with rfl | rfl | rfl | ⟨r, hr, rfl | ⟨htag, rfl⟩⟩
    · cases hkind
    · cases hkind
    · cases hkind
    · have hentry := h r hr
      rw [isEntry, hkind] at hentry
      cases hentry
    · rw [lineKind_headerLine htag] at hkind
      cases hkind
      obtain ⟨pr, -, rfl⟩ := List.mem_map.mp hr
      exact fun hdot => notMem_splitKey pr.1 (mem_of_mem_strip hdot)
  · rw [List.mem_singleton.mp hmem] at hkind
    exact nomatch hkind

/-- When reading the dump gives the map back, no line of an entry was read as
anything else, so no section of the dump contains a dot and every entry is
well formed. -/
theorem wellFormed_of_reload {m : MINI} (hline : ∀ r ∈ m.toList.map entryReading, OneLine r)
    (h : parse ∅ (dump m defaultHeader defaultFooter) = some m) :
    ∀ pr ∈ m.toList, WellFormed pr := by
  obtain ⟨hmap, hreadable⟩ := parse_textReadings h
  have hlines : textReadings (dump m defaultHeader defaultFooter) = readings []
      ((dumpLines defaultHeader defaultFooter (m.toList.map entryReading)).map (· ++ [cr]) ++
        [[]]) := by
    rw [textReadings, dump_eq m (by decide) (by decide), splitOn_render (notMem_dumpLines hline)]
  rw [hlines] at hmap hreadable
  have hall : ∀ r ∈ m.toList.map entryReading, isEntry (r.line ++ [cr]) = true := by
    apply List.countP_eq_length.mp
    apply le_antisymm List.countP_le_length
    have hsize : m.size ≤ _ := hmap ▸ Std.ExtTreeMap.size_insertMany_list_le
    rw [Std.ExtTreeMap.size_empty, Nat.zero_add, List.length_map, length_readings,
      countP_dumpLines] at hsize
    rwa [List.length_map, Std.ExtTreeMap.length_toList]
  have htags := readings_tag (P := fun tag => dot ∉ tag) List.not_mem_nil (header_dotless hall)
  rintro ⟨k, v⟩ hpr
  have hget := Std.ExtTreeMap.mem_toList_iff_getElem?_eq_some.mp hpr
  rw [hmap] at hget
  obtain ⟨front, r, back, hsplit, hpair, -⟩ := exists_last_reading hget
  have hr : r ∈ front ++ r :: back := by simp
  rw [← hsplit] at hr
  rw [← hpair, wellFormed_pair_iff (hreadable r hr)]
  exact fun hdot => absurd hdot (htags r hr)

/-- A parsed configuration is the same after a dump and a second parse exactly
when no entry of the text that counts has a section that is cut in the wrong
place. -/
theorem reload_iff {text : Bytes} {m : MINI} (h : parse ∅ text = some m) :
    parse ∅ (dump m defaultHeader defaultFooter) = some m ↔ Savable text := by
  obtain ⟨hmap, hreadable⟩ := parse_textReadings h
  have hlast : ∀ pr ∈ m.toList, ∃ front r back, textReadings text = front ++ r :: back ∧
      r.pair = pr ∧ ∀ r' ∈ back, r'.key ≠ r.key := by
    intro pr hpr
    have hget := Std.ExtTreeMap.mem_toList_iff_getElem?_eq_some.mp hpr
    rw [hmap] at hget
    exact exists_last_reading hget
  constructor
  · intro hreload front r back hsplit hback
    have hr : r ∈ textReadings text := by simp [hsplit]
    have hline : ∀ r' ∈ m.toList.map entryReading, OneLine r' := by
      intro r' hr'
      obtain ⟨pr, hpr, rfl⟩ := List.mem_map.mp hr'
      obtain ⟨front', q, back', hq, rfl, -⟩ := hlast pr hpr
      exact oneLine_of_readable (hreadable q (by simp [hq]))
    rw [← wellFormed_pair_iff (hreadable r hr)]
    apply wellFormed_of_reload hline hreload
    rw [Reading.pair, Std.ExtTreeMap.mem_toList_iff_getElem?_eq_some, hmap, hsplit]
    exact getElem?_last_reading hback
  · intro hsavable
    have hwell : ∀ pr ∈ m.toList, WellFormed pr := by
      intro pr hpr
      obtain ⟨front, r, back, hsplit, rfl, hback⟩ := hlast pr hpr
      rw [wellFormed_pair_iff (hreadable r (by simp [hsplit]))]
      exact hsavable front r back hsplit hback
    have hdotted : ∀ k ∈ m, dot ∈ k := by
      intro k hk
      obtain ⟨front, r, back, -, hpair, -⟩ := hlast (k, m[k]) (by simp)
      have hkey : r.key = k := congrArg Prod.fst hpair
      rw [← hkey]
      simp [Reading.key]
    rw [parse_dump_eq hwell, Option.some.injEq]
    apply Std.ExtTreeMap.ext_getElem?
    intro k
    apply Option.ext
    intro v
    rw [getElem?_dumpedPairs fun k hk hdot => absurd (hdotted k hk) hdot]
    constructor
    · rintro ⟨j, hj, hget⟩
      have hmem : j ∈ m := by
        rw [Std.ExtTreeMap.mem_iff_isSome_getElem?, hget]
        rfl
      rwa [← hj, qualify, if_pos (hdotted j hmem)]
    · intro hget
      have hmem : k ∈ m := by
        rw [Std.ExtTreeMap.mem_iff_isSome_getElem?, hget]
        rfl
      exact ⟨k, if_pos (hdotted k hmem), hget⟩

/-- A section whose name goes on after its dot with a `=`. -/
def cutSection : Bytes := ascii "[x.y=z]\nn=v"

/-- The key `x.y=z.n` of this text is read back as `x.y`. -/
theorem reload_renames_cutSection : ¬ ∀ (text : Bytes) (m : MINI), parse ∅ text = some m →
    parse ∅ (dump m defaultHeader defaultFooter) = some m := by
  intro h
  have hreload := congrArg (Option.map Std.ExtTreeMap.toList) (h cutSection _ rfl)
  revert hreload
  decide

theorem reload_iff_cutSection : ∃ m, parse ∅ cutSection = some m ∧
    (parse ∅ (dump m defaultHeader defaultFooter) = some m ↔ Savable cutSection) := by
  refine ⟨_, rfl, ?_⟩
  exact reload_iff rfl

end FFZKit.Util.Mini

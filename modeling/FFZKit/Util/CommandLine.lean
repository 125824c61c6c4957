import FFZKit.Util.CMDRegister

/-!
# What a command gets, and what is left of the line

The scan of `getArgs` is described by its state after any number of bytes. A
command gets exactly the words of the line. The line itself comes back only
when it has no blank: each blank is overwritten, and a second run of the same
line then ends at the first of them.
-/

namespace FFZKit.Util

open FFZKit.Foundations
open Std (ExtTreeMap)

variable {line : Bytes}

/-- The words of a line. -/
def words (line : Bytes) : List Bytes := runs isArgChar line

/-- What the scan leaves of a byte. -/
def clearBlank (c : UInt8) : UInt8 := if isArgChar c then c else 0

theorem clearBlank_ne_zero {c : UInt8} (hc : c ≠ 0) : (clearBlank c != 0) = isArgChar c := by
  cases hword : isArgChar c with
  | true => simp [clearBlank, hword, hc]
  | false => simp [clearBlank, hword]

theorem strlen_of_notMem (h : 0 ∉ line) : strlen line = line.length := by
  have hall : ∀ c ∈ line, (c != 0) = true := by
    intro c hc
    simpa using fun heq : c = 0 => h (heq ▸ hc)
  rw [strlen, List.takeWhile_eq_self_iff.mpr hall]

/-- The scan after `k` bytes: the blanks among them are overwritten, and there
is a pointer to each word that starts there. -/
structure Scanned (bytes : Bytes) (k : Nat) (st : ArgScan) : Prop where
  buf : st.buf = (bytes.take k).map clearBlank ++ bytes.drop k
  argv : st.argv = ((List.range k).filter (startsRun isArgChar bytes)).map some
  argc : st.argc = st.argv.length
  start : st.start = (k != 0 && bytes[k - 1]?.any isArgChar)

theorem scanned_zero (bytes : Bytes) : Scanned bytes 0 ⟨bytes, [], 0, false⟩ where
  buf := by simp
  argv := rfl
  argc := rfl
  start := rfl

namespace Scanned

variable {k : Nat} {st : ArgScan}

/-- The byte to be read is still that of the line. -/
theorem getD_buf (h : Scanned bytes k st) (hk : k < bytes.length) : st.buf.getD k 0 = bytes[k] := by
  have hlen : ((bytes.take k).map clearBlank).length = k := by simp [hk.le]
  rw [h.buf, List.getD_append_right _ _ _ _ hlen.le, hlen, Nat.sub_self,
    List.drop_eq_getElem_cons hk]
  rfl

/-- A word starts where a byte of a word is read and none was read before. -/
theorem startsRun_eq (h : Scanned bytes k st) (hk : k < bytes.length) :
    startsRun isArgChar bytes k = (isArgChar bytes[k] && !st.start) := by
  rw [startsRun, h.start, List.getElem?_eq_getElem hk, Option.any_some]
  cases k with
  | zero => simp
  | succ k => simp

/-- The vector has room for one more pointer, and takes it at its end. -/
theorem set_resizeArgv (h : Scanned bytes k st) (i : Nat) :
    (resizeArgv st.argv (st.argc + 1)).set st.argc (some i) = st.argv ++ [some i] := by
  rw [h.argc, resizeArgv, if_pos (Nat.lt_succ_self _), Nat.add_sub_cancel_left]
  simp

/-- The buffer after a byte that is kept or overwritten. -/
theorem buf_succ (h : Scanned bytes k st) (hk : k < bytes.length) :
    st.buf.set k (clearBlank bytes[k]) =
      (bytes.take (k + 1)).map clearBlank ++ bytes.drop (k + 1) := by
  have hlen : ((bytes.take k).map clearBlank).length = k := by simp [hk.le]
  rw [h.buf, List.set_append_right _ _ hlen.le, hlen, Nat.sub_self, List.drop_eq_getElem_cons hk,
    List.set_cons_zero, List.take_succ_eq_append_getElem hk, List.map_append, List.map_singleton,
    List.append_assoc, List.singleton_append]

theorem set_of_isArgChar (h : Scanned bytes k st) (hk : k < bytes.length)
    (hword : isArgChar bytes[k] = true) : st.buf.set k (clearBlank bytes[k]) = st.buf := by
  have hread := h.getD_buf hk
  have hlen : k < st.buf.length := by
    rw [h.buf]
    simp
    omega
  rw [List.getD_eq_getElem _ _ hlen] at hread
  rw [clearBlank, if_pos hword, ← hread, List.set_getElem_self]

theorem argTurn_of_blank (h : Scanned bytes k st) (hk : k < bytes.length)
    (hword : isArgChar bytes[k] = false) :
    argTurn st k = { st with buf := st.buf.set k (clearBlank bytes[k]), start := false } := by
  rw [argTurn, h.getD_buf hk, hword, clearBlank, hword]
  rfl

theorem argTurn_of_inside (h : Scanned bytes k st) (hk : k < bytes.length)
    (hword : isArgChar bytes[k] = true) (hon : st.start = true) : argTurn st k = st := by
  rw [argTurn, h.getD_buf hk, hword, if_pos rfl, hon, if_pos rfl]

theorem argTurn_of_start (h : Scanned bytes k st) (hk : k < bytes.length)
    (hword : isArgChar bytes[k] = true) (hon : st.start = false) :
    argTurn st k =
      { st with start := true, argv := st.argv ++ [some k], argc := st.argc + 1 } := by
  rw [argTurn, h.getD_buf hk, hword, if_pos rfl, hon, if_neg Bool.false_ne_true,
    h.set_resizeArgv]

/-- One turn of the loop. -/
theorem turn (h : Scanned bytes k st) (hk : k < bytes.length) :
    Scanned bytes (k + 1) (argTurn st k) := by
  have hstarts := h.startsRun_eq hk
  have hbuf := h.buf_succ hk
  have hstart : (k + 1 != 0 && bytes[k + 1 - 1]?.any isArgChar) = isArgChar bytes[k] := by
    simp [hk]
  cases hword : isArgChar bytes[k] with
  | false =>
      rw [hword, Bool.false_and] at hstarts
      rw [h.argTurn_of_blank hk hword]
      refine ⟨hbuf, ?_, h.argc, ?_⟩
      · rw [filter_startsRun_succ, hstarts, if_neg Bool.false_ne_true, List.append_nil]
        exact h.argv
      · rw [hstart, hword]
  | true =>
      rw [h.set_of_isArgChar hk hword] at hbuf
      rw [hword, Bool.true_and] at hstarts
      cases hon : st.start with
      | true =>
          rw [h.argTurn_of_inside hk hword hon]
          refine ⟨hbuf, ?_, h.argc, ?_⟩
          · rw [filter_startsRun_succ, hstarts, hon, Bool.not_true, if_neg Bool.false_ne_true,
              List.append_nil]
            exact h.argv
          · rw [hstart, hword, hon]
      | false =>
          rw [h.argTurn_of_start hk hword hon]
          refine ⟨hbuf, ?_, ?_, ?_⟩
          · rw [filter_startsRun_succ, hstarts, hon, Bool.not_false, if_pos rfl, List.map_append,
              List.map_singleton, ← h.argv]
          · rw [h.argc, List.length_append, List.length_singleton]
          · rw [hstart, hword]

end Scanned

/-- The scan of any prefix. -/
theorem scanned_range (line : Bytes) {k : Nat} (hk : k ≤ line.length) :
    Scanned line k ((List.range k).foldl argTurn ⟨line, [], 0, false⟩) := by
  induction k with
  | zero => exact scanned_zero line
  | succ k ih =>
      rw [List.range_succ, List.foldl_append, List.foldl_cons, List.foldl_nil]
      exact (ih (Nat.le_of_succ_le hk)).turn hk

section Line

variable (h : 0 ∉ line)

include h

theorem scanned_getArgs : Scanned line line.length (getArgs line) := by
  rw [getArgs, strlen_of_notMem h]
  exact scanned_range line le_rfl

/-- The line after the scan: each blank is a terminator. -/
theorem getArgs_buf : (getArgs line).buf = line.map clearBlank := by
  rw [(scanned_getArgs h).buf, List.take_length, List.drop_length, List.append_nil]

theorem getArgs_argc : (getArgs line).argc = (words line).length := by
  rw [(scanned_getArgs h).argc, (scanned_getArgs h).argv, words, runs, runStarts,
    List.length_map, List.length_map]

/-- The text behind a pointer into the scanned line goes on to the next blank. -/
theorem cString_getArgs (i : Nat) :
    cString (getArgs line).buf (some i) = some (runFrom isArgChar line i) := by
  have hcut : ∀ s : Bytes, 0 ∉ s →
      (s.map clearBlank).takeWhile (· != 0) = s.takeWhile isArgChar := by
    intro s
    induction s with
    | nil => exact fun _ => rfl
    | cons c s ih =>
        intro hs
        have hc : c ≠ 0 := fun heq => hs (heq ▸ List.mem_cons_self)
        have htail := ih fun hmem => hs (List.mem_cons_of_mem _ hmem)
        rw [List.map_cons, List.takeWhile_cons, List.takeWhile_cons, clearBlank_ne_zero hc, htail]
        cases hword : isArgChar c with
        | true => simp [clearBlank, hword]
        | false => rfl
  have hrest : 0 ∉ line.drop i := fun hmem => h (List.mem_of_mem_drop hmem)
  rw [getArgs_buf h, cString, Option.map_some, ← List.map_drop, hcut _ hrest, runFrom]

/-- The pointers lead to the words, in order. -/
theorem getArgs_argv :
    (getArgs line).argv.map (cString (getArgs line).buf) = (words line).map some := by
  rw [(scanned_getArgs h).argv, List.map_map, words, runs, runStarts, List.map_map]
  exact List.map_congr_left fun i _ => cString_getArgs h i

end Line

namespace CMDRegister

variable {Cmd : Type*} (reg : CMDRegister Cmd)

/-- What is to happen with the words of a line. -/
def dispatch : List Bytes → Outcome Cmd
  | [] => .done
  | cmd :: args =>
      match reg.cmdMap[cmd]? with
      | none => .throws (unrecognizedText cmd)
      | some found => .call found (args.length + 1) ((cmd :: args).map some)

/-- The words are dispatched, the line is as before, and a second run of it
does the same. -/
structure Intact (reg : CMDRegister Cmd) (line : Bytes) : Prop where
  dispatched : (reg.run line).1 = reg.dispatch (words line)
  unchanged : (reg.run line).2 = line
  again : (reg.run (reg.run line).2).1 = (reg.run line).1

/-- Every blank of the line is a terminator after the call. -/
theorem run_snd (h : 0 ∉ line) : (reg.run line).2 = line.map clearBlank := by
  rw [run]
  by_cases hline : line = []
  · rw [if_pos hline, hline, List.map_nil]
  · rw [if_neg hline, ← getArgs_buf h]
    simp only
    split
    · rfl
    · split <;> rfl

/-- A command is called with the words of the line. -/
theorem run_fst (h : 0 ∉ line) (hargc : (words line).length < 2 ^ 31) :
    (reg.run line).1 = reg.dispatch (words line) := by
  rw [run]
  by_cases hline : line = []
  · rw [if_pos hline, hline]
    rfl
  · rw [if_neg hline]
    have hargv := getArgs_argv h
    have hcount := getArgs_argc h
    cases hwords : words line with
    | nil =>
        rw [hwords, List.length_nil] at hcount
        simp only [hcount, if_true]
        rfl
    | cons cmd args =>
        rw [hwords, List.length_cons] at hcount hargc
        rw [hwords, List.map_cons] at hargv
        have hfirst : cString (getArgs line).buf ((getArgs line).argv.headD none) = some cmd := by
          cases hpointers : (getArgs line).argv with
          | nil => simp [hpointers] at hargv
          | cons pointer pointers =>
              rw [hpointers, List.map_cons, List.cons.injEq] at hargv
              exact hargv.1
        have hint : toInt32 (args.length + 1) = (args.length : Int) + 1 := by
          rw [toInt32_of_lt hargc]
          rfl
        simp only [hcount, if_neg (Nat.succ_ne_zero _), hfirst, Option.getD_some, dispatch,
          hargv, hint, List.map_cons]
        cases hfound : reg.cmdMap[cmd]? <;> rfl

/-- A line without blanks is one word, or none. -/
theorem length_words_of_forall (h : ∀ c ∈ line, isArgChar c = true) :
    (words line).length < 2 ^ 31 := by
  by_cases hline : line = []
  · rw [hline]
    exact Nat.two_pow_pos _
  · rw [words, runs_of_forall h hline, List.length_singleton]
    decide

/-- A line is dispatched by its words and left as it was exactly when it has no
blank. -/
theorem intact_iff (h : 0 ∉ line) : reg.Intact line ↔ ∀ c ∈ line, isArgChar c = true := by
  constructor
  · intro intact c hc
    by_contra hblank
    have hclear : clearBlank c = c := by
      have hall : line.map clearBlank = line.map id := by
        rw [← reg.run_snd h, intact.unchanged, List.map_id]
      exact List.map_inj_left.mp hall c hc
    rw [clearBlank, if_neg hblank] at hclear
    exact h (hclear ▸ hc)
  · intro hwords
    have hline : (reg.run line).2 = line := by
      rw [reg.run_snd h]
      calc line.map clearBlank = line.map id :=
            List.map_congr_left fun c hc => if_pos (hwords c hc)
        _ = line := List.map_id line
    exact ⟨reg.run_fst h (length_words_of_forall hwords), hline, by rw [hline]⟩

/-- The second run of a line with two words gets only the first. -/
theorem not_intact : 0 ∉ ascii "a b" ∧
    ¬ (registCMD ⟨∅⟩ (ascii "a") ()).Intact (ascii "a b") := by
  refine ⟨by decide, fun intact => ?_⟩
  have hfirst : ((registCMD ⟨∅⟩ (ascii "a") ()).run (ascii "a b")).1 =
      .call () 2 [some (ascii "a"), some (ascii "b")] := by decide
  have hsecond : ((registCMD ⟨∅⟩ (ascii "a") ()).run
      ((registCMD ⟨∅⟩ (ascii "a") ()).run (ascii "a b")).2).1 = .call () 1 [some (ascii "a")] := by
    decide
  have hagain := intact.again
  rw [hfirst, hsecond] at hagain
  exact absurd hagain (by decide)

theorem intact_help : (registCMD ⟨∅⟩ (ascii "help") ()).Intact (ascii "help") :=
  (intact_iff _ (by decide)).mpr (List.all_eq_true.mp (by decide))

end CMDRegister

end FFZKit.Util

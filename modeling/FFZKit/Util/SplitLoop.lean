import FFZKit.Foundations.Pieces
import FFZKit.Foundations.Settles
import FFZKit.Util.FilePath
import FFZKit.Util.Mini

/-!
# The loops of `split` and `CMD::split`

The two copies have the same loop and differ in what follows it. The loop goes
on from the end of each delimiter it finds, which is no progress when the
delimiter is empty.

## Implementation notes

A delimiter is the bytes before the terminator of the `const char *`. The loop
is evaluated with a bound on its turns and has no value where that is reached.
-/

namespace FFZKit.Util

open FFZKit.Foundations

/-- `s.find(delim, last)` -/
def findFrom (delim s : Bytes) (last : Nat) : Option Nat :=
  if last ≤ s.length then (find delim (s.drop last)).map (last + ·) else none

/-- The loop of both copies: the vector and `last` where it ends. -/
def splitLoop (s delim : Bytes) : Nat → List Bytes → Nat → Option (List Bytes × Nat)
  | 0, _, _ => none
  | turns + 1, ret, last =>
      match findFrom delim s last with
      | none => some (ret, last)
      | some index =>
          let ret := if 0 < index - last then ret ++ [(s.drop last).take (index - last)] else ret
          splitLoop s delim turns ret (index + delim.length)

/-- `split(s, delim)` -/
def splitUpTo (turns : Nat) (s delim : Bytes) : Option (List Bytes) :=
  (splitLoop s delim turns [] 0).map fun (ret, last) =>
    if s.length = 0 ∨ 0 < s.length - last then ret ++ [s.drop last] else ret

namespace CMD

/-- `CMD::split(s, delim, ret)` -/
def splitUpTo (turns : Nat) (s delim : Bytes) (ret : List Bytes) : Option (List Bytes) :=
  (splitLoop s delim turns ret 0).map fun (ret, last) =>
    if 0 < s.length - last then ret ++ [s.drop last] else ret

/-- `splitedVal(key, delim)`, which adds a key that is missing. -/
def splitedVal (turns : Nat) (cmd : Mini.MINI) (key delim : Bytes) :
    Option (List Bytes × Mini.MINI) :=
  (splitUpTo turns (cmd.getD key []) delim []).map fun ret => (ret, cmd.insertIfNew key [])

end CMD

/-- Both loops end, and on a string and a delimiter that are not empty both
copies return the pieces that are not empty, none of which has the delimiter in it. -/
structure SplitExact (s delim : Bytes) : Prop where
  ends : ∃ ret, Settles (fun turns => splitUpTo turns s delim) ret
  cmdEnds : ∃ ret, Settles (fun turns => CMD.splitUpTo turns s delim []) ret
  divided : s ≠ [] → delim ≠ [] → ∃ pieces, Pieces delim s pieces
  exact : s ≠ [] → delim ≠ [] → ∀ pieces, Pieces delim s pieces →
    Settles (fun turns => splitUpTo turns s delim) (pieces.filter (· ≠ [])) ∧
      Settles (fun turns => CMD.splitUpTo turns s delim []) (pieces.filter (· ≠ [])) ∧
      ∀ piece ∈ pieces, ¬ delim <:+: piece

theorem findFrom_of_absent {delim s : Bytes} {last : Nat} (h : ¬ delim <:+: s.drop last) :
    findFrom delim s last = none := by
  rw [findFrom, find_of_absent h]
  split <;> rfl

theorem findFrom_of_first {delim s piece rest : Bytes} {last : Nat} (hlast : last ≤ s.length)
    (hdrop : s.drop last = piece ++ delim ++ rest)
    (hfirst : ∀ i < piece.length, ¬ delim <+: (piece ++ delim ++ rest).drop i) :
    findFrom delim s last = some (last + piece.length) := by
  have hfind : find delim (piece ++ delim ++ rest) = some piece.length := by
    apply find_of_first _ _ hfirst
    · simp
    · rw [List.append_assoc, List.drop_left]
      exact List.prefix_append delim rest
  rw [findFrom, if_pos hlast, hdrop, hfind]
  rfl

/-- A piece that is pushed unless it is empty. -/
theorem push_eq (ret : List Bytes) (piece : Bytes) :
    (if 0 < piece.length then ret ++ [piece] else ret) = ret ++ [piece].filter (· ≠ []) := by
  by_cases hpiece : piece = []
  · simp [hpiece]
  · simp [hpiece, List.length_pos_of_ne_nil hpiece]

/-- The loop pushes every piece but the last, which is left from `last` on. -/
theorem settles_splitLoop {s delim rest : Bytes} {pieces : List Bytes}
    (h : Pieces delim rest pieces) {last : Nat} (hlast : last ≤ s.length)
    (hdrop : s.drop last = rest) (ret : List Bytes) :
    ∃ front last', pieces = front ++ [s.drop last'] ∧ Settles
      (fun turns => splitLoop s delim turns ret last) (ret ++ front.filter (· ≠ []), last') := by
  induction h generalizing last ret with
  | last absent =>
      refine ⟨[], last, by rw [hdrop, List.nil_append], 1, fun turns hturns => ?_⟩
      obtain ⟨turns, rfl⟩ := Nat.exists_eq_add_of_le' hturns
      rw [← hdrop] at absent
      simp [splitLoop, findFrom_of_absent absent]
  | @cut piece rest pieces first tail ih =>
      have hfind := findFrom_of_first hlast hdrop first
      have hlen := congrArg List.length hdrop
      simp only [List.length_drop, List.length_append] at hlen
      have hnext : s.drop (last + piece.length + delim.length) = rest := by
        rw [Nat.add_assoc, ← List.drop_drop, hdrop, ← List.length_append, List.drop_left]
      have hpush : (if 0 < last + piece.length - last then
          ret ++ [(s.drop last).take (last + piece.length - last)] else ret) =
            ret ++ [piece].filter (· ≠ []) := by
        rw [Nat.add_sub_cancel_left, hdrop, List.append_assoc, List.take_left, push_eq]
      obtain ⟨front, last', heq, hsettles⟩ :=
        ih (by omega) hnext (ret ++ [piece].filter (· ≠ []))
      refine ⟨piece :: front, last', by rw [heq, List.cons_append], ?_⟩
      rw [← List.singleton_append, List.filter_append, ← List.append_assoc]
      apply hsettles.succ
      intro turns
      rw [splitLoop, hfind]
      simp only [hpush]

/-- With an empty delimiter the loop never moves on. -/
theorem splitLoop_nil (s : Bytes) (ret : List Bytes) (turns : Nat) :
    splitLoop s [] turns ret 0 = none := by
  induction turns with
  | zero => rfl
  | succ turns ih =>
      have hfind : findFrom [] s 0 = some 0 := by
        rw [findFrom, if_pos (Nat.zero_le _),
          find_of_first (Nat.zero_le _) List.nil_prefix (by simp)]
        rfl
      rw [splitLoop, hfind]
      exact ih

/-- What follows the loop adds the last piece, unless it is empty. -/
theorem CMD.settles_splitUpTo {s delim : Bytes} {pieces : List Bytes} (h : Pieces delim s pieces)
    (ret : List Bytes) :
    Settles (fun turns => splitUpTo turns s delim ret) (ret ++ pieces.filter (· ≠ [])) := by
  obtain ⟨front, last', rfl, hloop⟩ := settles_splitLoop h (Nat.zero_le _) List.drop_zero ret
  rw [List.filter_append, ← List.append_assoc, ← push_eq, List.length_drop]
  exact hloop.map fun (ret, last) => if 0 < s.length - last then ret ++ [s.drop last] else ret

/-- Of two occurrences that overlap the second one is in the piece after the first. -/
example : CMD.splitUpTo 3 (ascii "a:::b") (ascii "::") [] = some [ascii "a", ascii ":b"] := by
  decide

theorem splitUpTo_eq {s : Bytes} (hs : s ≠ []) (delim : Bytes) (turns : Nat) :
    splitUpTo turns s delim = CMD.splitUpTo turns s delim [] := by
  have hlen : s.length ≠ 0 := fun h => hs (List.length_eq_zero_iff.mp h)
  simp only [splitUpTo, CMD.splitUpTo, hlen, false_or]

/-- The copies differ on the empty string, which only `split` returns. -/
theorem settles_splitUpTo_nil {delim : Bytes} (hdelim : delim ≠ []) :
    Settles (fun turns => splitUpTo turns [] delim) [[]] ∧
      Settles (fun turns => CMD.splitUpTo turns [] delim []) [] := by
  have habsent : ¬ delim <:+: [] := fun h => hdelim (List.infix_nil.mp h)
  constructor
  · refine ⟨1, fun turns hturns => ?_⟩
    obtain ⟨turns, rfl⟩ := Nat.exists_eq_add_of_le' hturns
    have hfind : findFrom delim [] 0 = none := findFrom_of_absent habsent
    simp [splitUpTo, splitLoop, hfind]
  · exact CMD.settles_splitUpTo (Pieces.last habsent) []

/-- What `split` returns for a delimiter that is not empty. -/
theorem settles_split (s : Bytes) {delim : Bytes} (hdelim : delim ≠ []) :
    Settles (fun turns => splitUpTo turns s delim) (split s delim hdelim) := by
  by_cases hs : s = []
  · subst hs
    exact (settles_splitUpTo_nil hdelim).1
  · obtain ⟨pieces, hpieces, hsplit⟩ := pieces_splitFrom hdelim s
    rw [split, if_neg hs, hsplit]
    simp only [splitUpTo_eq hs]
    exact CMD.settles_splitUpTo hpieces []

theorem CMD.splitedVal_settles {cmd : Mini.MINI} {key delim : Bytes} {pieces : List Bytes}
    (h : Pieces delim (cmd.getD key []) pieces) :
    Settles (fun turns => splitedVal turns cmd key delim)
      (pieces.filter (· ≠ []), cmd.insertIfNew key []) := by
  have hsplit := CMD.settles_splitUpTo h []
  rw [List.nil_append] at hsplit
  exact hsplit.map fun ret => (ret, cmd.insertIfNew key [])

/-- The loops end, and the copies agree, exactly when the delimiter is not empty. -/
theorem split_exact_iff (s delim : Bytes) : SplitExact s delim ↔ delim ≠ [] := by
  constructor
  · rintro h rfl
    obtain ⟨ret, hsettles⟩ := h.ends
    apply not_settles_of_none _ ret hsettles
    intro turns
    rw [splitUpTo, splitLoop_nil]
    rfl
  · intro hdelim
    obtain ⟨pieces, hpieces, hsplit⟩ := pieces_splitFrom hdelim s
    have hcmd := CMD.settles_splitUpTo hpieces []
    rw [List.nil_append] at hcmd
    refine ⟨⟨_, settles_split s hdelim⟩, ⟨_, hcmd⟩, fun _ _ => ⟨pieces, hpieces⟩, ?_⟩
    intro hs _ pieces' hpieces'
    obtain rfl := hpieces.unique hpieces'
    have hret := settles_split s hdelim
    rw [split, if_neg hs, hsplit] at hret
    exact ⟨hret, hcmd, hpieces.absent hdelim⟩

/-- With an empty delimiter the loop goes on for ever. -/
theorem not_split_exact : ¬ SplitExact (ascii "a") [] := fun h =>
  (split_exact_iff (ascii "a") []).mp h rfl

end FFZKit.Util

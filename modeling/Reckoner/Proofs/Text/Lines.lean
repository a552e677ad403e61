import Reckoner.Text.Lines

/-!
Texts made of lines. Lines that are put one behind the other, each with a line feed at its end, are
the lines of the text, if no other line feed is in them and no carriage return stands last in one. -/

namespace Reckoner.Text

/-- A text that is one line: a line feed, or the end of a line that stands in front of it, is no part
of it. -/
structure OneLine (s : String) : Prop where
  noFeed : '\n' ∉ s.toList
  noReturn : s.toList.getLast? ≠ some '\r'

theorem toList_pushn (s : String) (c : Char) (n : Nat) :
    (s.pushn c n).toList = s.toList ++ List.replicate n c := by
  induction n with
  | zero => exact (List.append_nil _).symm
  | succ n ih =>
    rw [List.replicate_succ', ← List.append_assoc, ← ih]
    exact String.toList_push _

theorem OneLine.of_forall {s : String} (h : ∀ c ∈ s.toList, c ≠ '\n' ∧ c ≠ '\r') : OneLine s :=
  ⟨fun hmem => (h _ hmem).1 rfl, fun hlast => (h _ (List.mem_of_getLast? hlast)).2 rfl⟩

theorem dropReturn_of_head {cs : List Char} (h : cs.head? ≠ some '\r') : dropReturn cs = cs := by
  unfold dropReturn
  split
  · exact absurd rfl h
  · rfl

/-- The current line goes on up to the first line feed. -/
theorem linesFrom_append {cs : List Char} (h : '\n' ∉ cs) (current rest : List Char) :
    linesFrom current (cs ++ '\n' :: rest)
      = (dropReturn (cs.reverse ++ current)).reverse :: linesFrom [] rest := by
  induction cs generalizing current with
  | nil => simp [linesFrom]
  | cons c cs ih =>
    obtain ⟨hc, hcs⟩ := not_or.1 (mt List.mem_cons.2 h)
    rw [List.cons_append, linesFrom, if_neg (Ne.symm hc), ih hcs]
    simp

/-- A line that is closed stands in front of the lines behind it. -/
theorem lines_append {l : String} (h : OneLine l) (rest : String) :
    lines (l ++ "\n" ++ rest) = l :: lines rest := by
  have hhead : l.toList.reverse.head? ≠ some '\r' := by
    rw [List.head?_reverse]
    exact h.noReturn
  have htext : (l ++ "\n" ++ rest).toList = l.toList ++ '\n' :: rest.toList := by simp
  rw [lines, htext, linesFrom_append h.noFeed, List.append_nil, dropReturn_of_head hhead,
    List.reverse_reverse, List.map_cons, String.ofList_toList, lines]

/-- Without a line feed, the current line goes on up to the end of the text. -/
theorem linesFrom_of_noFeed {cs : List Char} (h : '\n' ∉ cs) (current : List Char)
    (hne : current ≠ [] ∨ cs ≠ []) : linesFrom current cs = [current.reverse ++ cs] := by
  induction cs generalizing current with
  | nil =>
    rw [linesFrom, List.append_nil]
    exact hne.resolve_right (· rfl)
  | cons c cs ih =>
    obtain ⟨hc, hcs⟩ := not_or.1 (mt List.mem_cons.2 h)
    rw [linesFrom, if_neg (Ne.symm hc), ih hcs (c :: current) (.inl (List.cons_ne_nil c current))]
    simp

/-- The last line may end with the text. -/
theorem lines_last {l : String} (h : '\n' ∉ l.toList) (hne : l ≠ "") : lines l = [l] := by
  rw [lines, linesFrom_of_noFeed h [] (.inr (by simpa using hne))]
  simp

/-- Lines that are closed one behind the other are found again. -/
theorem lines_join {ls : List String} (h : ∀ l ∈ ls, OneLine l) :
    lines (String.join (ls.map (· ++ "\n"))) = ls := by
  induction ls with
  | nil => simp [lines, linesFrom]
  | cons l ls ih =>
    obtain ⟨hl, hls⟩ := List.forall_mem_cons.1 h
    rw [List.map_cons, String.join_cons, lines_append hl, ih hls]

end Reckoner.Text

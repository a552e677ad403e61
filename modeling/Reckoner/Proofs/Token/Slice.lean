import Reckoner.Proofs.Evaluation.Meaning
import Reckoner.Proofs.Token.Munch

/-!
Slices of a line. Tokens that follow each other take up a slice of their line: between the texts
that they were cut out as there is nothing but separators, and no separator is in one of these texts.
So the slice without its separators is what the tokens say, one behind the other. -/

namespace Reckoner

variable {α : Type}

namespace Token

/-- The token says what it was cut out of the line as. -/
theorem text_of_pattern {t : Token String} {text : List Char} (h : t.kind.Pattern text)
    (hpayload : ∀ s ∈ t.kind.payload?, s = String.ofList text) :
    t.text id = String.ofList text := by
  obtain ⟨kind, span⟩ := t
  cases kind with
  | ident s | number s => exact hpayload s rfl
  | invalid | eof => cases h
  | ret | plus | minus | star | slash | caret | lparen | rparen | eq =>
    obtain rfl : text = _ := h
    rfl

/-- Behind some of its tokens, a scan goes on as the scan of what is left of the line. -/
theorem exists_scanFrom_behind {offset : Nat} {cs : List Char} : ∀ left right : List (Token String),
    scanFrom offset cs = left ++ right →
      ∃ before after, cs = before ++ after ∧ scanFrom (offset + byteLength before) after = right := by
  fun_induction scanFrom offset cs with
  | case1 offset =>
    intro left right h
    obtain ⟨rfl, rfl⟩ := List.append_eq_nil_iff.1 h.symm
    exact ⟨[], [], rfl, by rw [scanFrom]⟩
  | case2 offset c cs hsep ih =>
    intro left right h
    obtain ⟨before, after, rfl, hright⟩ := ih _ _ h
    refine ⟨c :: before, after, rfl, ?_⟩
    rw [← hright, Nat.add_assoc]
    rfl
  | case3 offset c cs hsep taken stop ih =>
    have happend : c :: taken.2.1 ++ taken.2.2 = c :: cs := congrArg (c :: ·) (munch_append c cs)
    intro left right h
    cases left with
    | nil => exact ⟨[], c :: cs, rfl, by rw [scanFrom, if_neg hsep]; exact h⟩
    | cons t left =>
      obtain ⟨-, h⟩ := List.cons.inj h
      obtain ⟨before, after, hrest, hright⟩ := ih _ _ h
      refine ⟨c :: taken.2.1 ++ before, after, ?_, ?_⟩
      · rw [← happend, hrest, List.append_assoc]
      · rw [← hright, byteLength_append, ← Nat.add_assoc]

/-- Characters without the separators among them. -/
def unseparated (cs : List Char) : List Char := cs.filter fun c => !isSeparator c

theorem unseparated_eq (cs : List Char) :
    unseparated cs = cs.filter (· ∉ [' ', '\t', '\r', '\n', '\x0c']) := by
  refine List.filter_congr fun c _ => ?_
  rw [Bool.eq_iff_iff]
  simp [isSeparator, and_assoc]

theorem unseparated_append (cs ds : List Char) :
    unseparated (cs ++ ds) = unseparated cs ++ unseparated ds :=
  List.filter_append cs ds

theorem unseparated_of_separators {cs : List Char} (h : ∀ c ∈ cs, isSeparator c = true) :
    unseparated cs = [] :=
  List.filter_eq_nil_iff.2 fun c hc => by rw [h c hc]; decide

theorem unseparated_of_pattern {k : TokenKind α} {cs : List Char} (h : k.Pattern cs) :
    unseparated cs = cs :=
  List.filter_eq_self.2 fun c hc => by rw [(h.lexical c hc).not_isSeparator]; rfl

/-- The first tokens of a scan take up a slice that only separators stand in front of. -/
theorem exists_slice_scanFrom {offset : Nat} {cs : List Char} : ∀ (t : Token String) ts right,
    scanFrom offset cs = t :: ts ++ right → (∀ u ∈ t :: ts, u.kind.isInvalid = false) →
      ∃ gap slice after, cs = gap ++ slice ++ after ∧ (∀ c ∈ gap, isSeparator c = true) ∧
        t.span.start = offset + byteLength gap ∧
        ((t :: ts).getLast (List.cons_ne_nil t ts)).span.stop = offset + byteLength (gap ++ slice) ∧
        unseparated slice = ((t :: ts).map fun u => (u.text id).toList).flatten := by
  fun_induction scanFrom offset cs with
  | case1 offset =>
    intro t ts right h
    cases h
  | case2 offset c cs hsep ih =>
    intro t ts right h hvalid
    obtain ⟨gap, slice, after, rfl, hgap, hstart, hstop, htext⟩ := ih _ _ _ h hvalid
    refine ⟨c :: gap, slice, after, rfl, List.forall_mem_cons.2 ⟨hsep, hgap⟩, ?_, ?_, htext⟩
    · rw [hstart, Nat.add_assoc]
      rfl
    · rw [hstop, Nat.add_assoc]
      rfl
  | case3 offset c cs hsep taken stop ih =>
    have happend : c :: taken.2.1 ++ taken.2.2 = c :: cs := congrArg (c :: ·) (munch_append c cs)
    intro t ts right h hvalid
    obtain ⟨rfl, hrest⟩ := List.cons.inj h
    obtain ⟨htvalid, hvalid⟩ := List.forall_mem_cons.1 hvalid
    have hpattern : taken.1.Pattern (c :: taken.2.1) := by
      refine (pattern_munch c cs).resolve_left fun hnone => ?_
      rw [show taken.1 = .invalid from hnone.1] at htvalid
      cases htvalid
    have hown : (text id (⟨taken.1, ⟨offset, stop⟩⟩ : Token String)).toList = c :: taken.2.1 := by
      rw [text_of_pattern hpattern (payload_munch c cs), String.toList_ofList]
    cases ts with
    | nil =>
      refine ⟨[], c :: taken.2.1, taken.2.2, happend.symm, List.forall_mem_nil _, rfl, rfl, ?_⟩
      rw [unseparated_of_pattern hpattern, List.map_singleton, List.flatten_singleton, hown]
    | cons u us =>
      obtain ⟨gap, slice, after, hcs, hgap, -, hstop, htext⟩ := ih _ _ _ hrest hvalid
      refine ⟨[], c :: taken.2.1 ++ gap ++ slice, after, ?_, List.forall_mem_nil _, rfl, ?_, ?_⟩
      · rw [← happend, hcs]
        simp only [List.append_assoc, List.nil_append]
      · rw [List.getLast_cons (List.cons_ne_nil u us), hstop]
        simp only [stop, List.nil_append, List.append_assoc, byteLength_append, Nat.add_assoc]
      · rw [List.map_cons, List.flatten_cons, hown, ← htext, unseparated_append, unseparated_append,
          unseparated_of_pattern hpattern, unseparated_of_separators hgap, List.append_nil]

end Token

/-- Tokens that follow each other in a line, none of them an invalid character, cover a slice of the
line, which without its separators is their texts one behind the other. -/
theorem Token.exists_slice {line : String} {left ts right : List (Token String)}
    (h : scan line = left ++ ts ++ right) (hne : ts ≠ [])
    (hvalid : ∀ t ∈ ts, t.kind.isInvalid = false) :
    ∃ before slice after,
      (Span.mk (ts.head hne).span.start (ts.getLast hne).span.stop).Covers line before slice after ∧
      String.ofList (unseparated slice.toList) = String.join (ts.map (Token.text id)) := by
  rw [List.append_assoc] at h
  obtain ⟨skipped, rest, hline, hrest⟩ := exists_scanFrom_behind _ _ h
  obtain ⟨t, ts, rfl⟩ := List.exists_cons_of_ne_nil hne
  obtain ⟨gap, slice, after, rfl, -, hstart, hstop, htext⟩ := exists_slice_scanFrom _ _ _ hrest hvalid
  refine ⟨.ofList (skipped ++ gap), .ofList slice, .ofList after, ⟨?_, ?_, ?_⟩, ?_⟩
  · rw [← String.toList_inj, hline]
    simp
  · rw [List.head_cons, hstart, ← byteLength_eq, byteLength_append, Nat.zero_add]
  · rw [hstop, ← String.ofList_append, ← byteLength_eq]
    simp only [byteLength_append, Nat.zero_add, Nat.add_assoc]
  · rw [String.toList_ofList, htext, String.join_eq, List.map_map]
    rfl

end Reckoner

import Reckoner.Proofs.Token.Munch
import Reckoner.Proofs.Tree.Places

/-!
Columns. Separators and all texts that match a pattern are ASCII, so up to the first invalid
character of a line the bytes are counted as the characters are: a token that stands there starts at
the same column in either count, and so does everything that is merged from such tokens. -/

namespace Reckoner

/-- Characters that take one byte each. -/
def Text.Ascii (cs : List Char) : Prop := ∀ c ∈ cs, c.toNat < 128

/-! ### Texts of tokens -/

theorem Text.ascii_nil : Ascii [] := List.forall_mem_nil _

theorem Text.ascii_append {cs ds : List Char} (hcs : Ascii cs) (hds : Ascii ds) :
    Ascii (cs ++ ds) :=
  List.forall_mem_append.2 ⟨hcs, hds⟩

theorem TokenKind.Pattern.ascii {α : Type} {k : TokenKind α} {cs : List Char} (h : k.Pattern cs) :
    Text.Ascii cs :=
  fun c hc => (h.lexical c hc).toNat_lt

namespace Token

theorem toNat_lt_of_isSeparator {c : Char} (h : isSeparator c = true) : c.toNat < 128 := by
  have hc : (((c = ' ' ∨ c = '\t') ∨ c = '\r') ∨ c = '\n') ∨ c = '\x0c' := by
    simpa [isSeparator] using h
  rcases hc with (((rfl | rfl) | rfl) | rfl) | rfl <;> decide

theorem byteLength_of_ascii : ∀ {cs : List Char}, Text.Ascii cs → byteLength cs = cs.length
  | [], _ => rfl
  | c :: cs, h => by
    obtain ⟨hc, hcs⟩ := List.forall_mem_cons.1 h
    have hsize : c.utf8Size = 1 := by
      rw [Char.utf8Size_eq_one_iff, UInt32.le_iff_toNat_le]
      exact Nat.le_of_lt_succ hc
    rw [byteLength, List.foldr_cons, ← byteLength, byteLength_of_ascii hcs, hsize,
      List.length_cons, Nat.add_comm]

end Token

/-! ### Marks -/

/-- As many bytes as some ASCII characters that the line starts with. -/
def Text.AsciiUpTo (line : String) (n : Nat) : Prop :=
  ∃ upto, upto <+: line.toList ∧ Ascii upto ∧ n = Token.byteLength upto

/-- The span lies within the line, between two characters of it, and behind ASCII only. -/
structure Span.Marks (line : String) (s : Span) : Prop where
  start : ∃ before, before <+: line.toList ∧ Text.Ascii before ∧ s.start = Token.byteLength before
  stop : ∃ upto, upto <+: line.toList ∧ s.stop = Token.byteLength upto
  le : s.start ≤ s.stop

/-- Of two beginnings of a line, the one with fewer bytes begins the other one. -/
theorem Token.prefix_of_byteLength_le {cs ds line : List Char} (hcs : cs <+: line)
    (hds : ds <+: line) (h : byteLength cs ≤ byteLength ds) : cs <+: ds := by
  rcases List.prefix_or_prefix_of_prefix hcs hds with hfront | ⟨more, rfl⟩
  · exact hfront
  · rw [byteLength_append] at h
    cases more with
    | nil => simp
    | cons c cs =>
      have hpos := byteLength_cons_pos c cs
      omega

/-- What stands between two places of a line is covered by the span from one to the other. -/
theorem Span.exists_covers {line : String} {before upto : List Char}
    (hbefore : before <+: line.toList) (hupto : upto <+: line.toList) (hle : Token.byteLength before ≤ Token.byteLength upto) :
    ∃ text after, upto = before ++ text ∧
      (Span.mk (Token.byteLength before) (Token.byteLength upto)).Covers line (.ofList before)
        (.ofList text) (.ofList after) := by
  obtain ⟨text, rfl⟩ := Token.prefix_of_byteLength_le hbefore hupto hle
  obtain ⟨after, hline⟩ := hupto
  refine ⟨text, after, rfl, ?_, Token.byteLength_eq _, ?_⟩
  · rw [← String.ofList_append, ← String.ofList_append, hline, String.ofList_toList]
  · show Token.byteLength (before ++ text) = _
    rw [Token.byteLength_eq, String.ofList_append]

/-- A mark covers a text of the line, and has as many bytes in front of it as characters. -/
theorem Span.Marks.exists_covers {line : String} {s : Span} (h : s.Marks line) :
    ∃ before text after, s.Covers line before text after ∧
      (∀ c ∈ before.toList, c.toNat < 128) ∧ s.start = before.length := by
  obtain ⟨start, stop⟩ := s
  obtain ⟨⟨before, hbefore, hascii, rfl⟩, ⟨upto, hupto, rfl⟩, hle⟩ := h
  obtain ⟨text, after, -, hcovers⟩ := Span.exists_covers hbefore hupto hle
  refine ⟨_, _, _, hcovers, ?_, ?_⟩
  · rw [String.toList_ofList]
    exact hascii
  · rw [Token.byteLength_of_ascii hascii, String.length_ofList]

theorem Span.Covers.marks {line before text after : String} {s : Span}
    (h : s.Covers line before text after) (hascii : Text.Ascii before.toList) : s.Marks line := by
  obtain ⟨rfl, hstart, hstop⟩ := h
  refine ⟨⟨before.toList, ?_, hascii, ?_⟩, ⟨(before ++ text).toList, ?_, ?_⟩, ?_⟩
  · rw [String.append_assoc, String.toList_append]
    exact List.prefix_append _ _
  · rw [hstart, Token.byteLength_eq, String.ofList_toList]
  · exact ⟨after.toList, String.toList_append.symm⟩
  · rw [hstop, Token.byteLength_eq, String.ofList_toList]
  · rw [hstart, hstop, String.utf8ByteSize_append]
    exact Nat.le_add_right _ _

/-- A span covers no two texts of a line. -/
theorem Span.Covers.unique {s : Span} {line before text after before' text' after' : String}
    (h : s.Covers line before text after) (h' : s.Covers line before' text' after') :
    before = before' ∧ text = text' := by
  have hfront : ∀ {front front' rest rest' : String}, line = front ++ rest →
      line = front' ++ rest' → front.utf8ByteSize = front'.utf8ByteSize → front = front' := by
    intro front front' rest rest' hline hline' hsize
    have hstarts : ∀ {f r : String}, line = f ++ r → f.toList <+: line.toList := by
      rintro f r rfl
      rw [String.toList_append]
      exact List.prefix_append _ _
    have hbytes : Token.byteLength front.toList = Token.byteLength front'.toList := by
      rw [Token.byteLength_eq, Token.byteLength_eq, String.ofList_toList, String.ofList_toList, hsize]
    have hle := Token.prefix_of_byteLength_le (hstarts hline) (hstarts hline') hbytes.le
    have hge := Token.prefix_of_byteLength_le (hstarts hline') (hstarts hline) hbytes.ge
    exact String.toList_inj.1 (hle.eq_of_length_le hge.length_le)
  have hbefore : before = before' := by
    have hline : line = before ++ (text ++ after) := by rw [h.line_eq, String.append_assoc]
    have hline' : line = before' ++ (text' ++ after') := by rw [h'.line_eq, String.append_assoc]
    exact hfront hline hline' (by rw [← h.start_eq, h'.start_eq])
  subst hbefore
  have hupto := hfront h.line_eq h'.line_eq (by rw [← h.stop_eq, h'.stop_eq])
  exact ⟨rfl, by simpa using hupto⟩

/-- The span lies within the line, and the line is ASCII up to the end of it. -/
structure Span.MarksAscii (line : String) (s : Span) : Prop where
  start : Text.AsciiUpTo line s.start
  stop : Text.AsciiUpTo line s.stop
  le : s.start ≤ s.stop

theorem Span.MarksAscii.marks {line : String} {s : Span} (h : s.MarksAscii line) :
    s.Marks line := by
  obtain ⟨upto, hupto, -, hstop⟩ := h.stop
  exact ⟨h.start, ⟨upto, hupto, hstop⟩, h.le⟩

/-- What is merged from such spans starts where one of them does, and stops where one of them does.
-/
theorem Span.mergeable_marksAscii (line : String) : Span.Mergeable (Span.MarksAscii line) := by
  have hnone : Text.AsciiUpTo line 0 := ⟨[], List.nil_prefix, Text.ascii_nil, rfl⟩
  refine ⟨⟨hnone, hnone, le_rfl⟩, ?_⟩
  rintro s t ⟨hstart, hstop, hle⟩ ⟨hstart', hstop', hle'⟩
  refine ⟨?_, ?_, ?_⟩
  · rcases min_choice s.start t.start with h | h
    · rwa [merge, h]
    · rwa [merge, h]
  · rcases max_choice s.stop t.stop with h | h
    · rwa [merge, h]
    · rwa [merge, h]
  · simp only [merge]
    omega

/-- Such a span covers a text of the line that is ASCII, as all is in front of it. -/
theorem Span.MarksAscii.exists_covers {line : String} {s : Span} (h : s.MarksAscii line) :
    ∃ before text after, s.Covers line before text after ∧
      Text.Ascii before.toList ∧ Text.Ascii text.toList := by
  obtain ⟨start, stop⟩ := s
  obtain ⟨⟨before, hbefore, hasciiBefore, rfl⟩, ⟨upto, hupto, hascii, rfl⟩, hle⟩ := h
  obtain ⟨text, after, rfl, hcovers⟩ := Span.exists_covers hbefore hupto hle
  refine ⟨_, _, _, hcovers, ?_, ?_⟩
  · rw [String.toList_ofList]
    exact hasciiBefore
  · rw [String.toList_ofList]
    exact (List.forall_mem_append.1 hascii).2

namespace Token

variable {α : Type} {P : Span → Prop}

/-- Of some tokens, the first invalid one and those in front of it have a property of spans. -/
def UpToInvalid (P : Span → Prop) (ts : List (Token α)) : Prop :=
  ∀ us t vs, ts = us ++ t :: vs → (∀ u ∈ us, u.kind.isInvalid = false) → P t.span

/-- The tokens of a line mark it up to the first invalid one; the end of the line does if there is
none. -/
theorem upToInvalid_scanFrom {offset : Nat} {cs : List Char} :
    UpToInvalid (fun s => ∃ before text, before ++ text <+: cs ∧ Text.Ascii before ∧
        s = ⟨offset + byteLength before, offset + byteLength (before ++ text)⟩)
      (scanFrom offset cs ++ [⟨.eof, .point (offset + byteLength cs)⟩]) := by
  fun_induction scanFrom offset cs with
  | case1 offset =>
    rintro us t vs hts -
    rcases us with - | ⟨u, us⟩
    · obtain ⟨rfl, -⟩ := List.cons.inj hts
      exact ⟨[], [], List.prefix_rfl, Text.ascii_nil, rfl⟩
    · simp at hts
  | case2 offset c cs hsep ih =>
    intro us t vs hts hus
    have hend : offset + byteLength (c :: cs) = offset + c.utf8Size + byteLength cs := by
      rw [Nat.add_assoc]
      rfl
    rw [hend] at hts
    obtain ⟨before, text, hcs, hascii, hspan⟩ := ih us t vs hts hus
    refine ⟨c :: before, text, (List.prefix_cons_inj c).2 hcs,
      List.forall_mem_cons.2 ⟨toNat_lt_of_isSeparator hsep, hascii⟩, ?_⟩
    rw [hspan, Nat.add_assoc, Nat.add_assoc]
    rfl
  | case3 offset c cs hsep taken stop ih =>
    have happend : c :: taken.2.1 ++ taken.2.2 = c :: cs := congrArg (c :: ·) (munch_append c cs)
    intro us t vs hts hus
    rcases us with - | ⟨u, us⟩
    · obtain ⟨rfl, -⟩ := List.cons.inj hts
      exact ⟨[], c :: taken.2.1, ⟨taken.2.2, happend⟩, Text.ascii_nil, rfl⟩
    · -- the token that is taken stands in front of `t`, so it is valid and its text is ASCII
      obtain ⟨rfl, hrest⟩ := List.cons.inj hts
      obtain ⟨hvalid, hus⟩ := List.forall_mem_cons.1 hus
      have hend : offset + byteLength (c :: cs) = stop + byteLength taken.2.2 := by
        rw [← happend, byteLength_append, Nat.add_assoc]
      rw [hend] at hrest
      obtain ⟨before, text, hcs, hascii, hspan⟩ := ih us t vs hrest hus
      have htaken : Text.Ascii (c :: taken.2.1) := by
        rcases pattern_munch c cs with ⟨hinvalid, -⟩ | hpattern
        · rw [show taken.1 = .invalid from hinvalid] at hvalid
          cases hvalid
        · exact hpattern.ascii
      refine ⟨c :: taken.2.1 ++ before, text, ?_, Text.ascii_append htaken hascii, ?_⟩
      · rw [← happend, List.append_assoc]
        exact (List.prefix_append_right_inj _).2 hcs
      · rw [hspan]
        simp only [stop, List.append_assoc, byteLength_append, Nat.add_assoc]

/-- Up to the first invalid character, the tokens of a line and its end mark the line. -/
theorem upToInvalid_scan (line : String) :
    UpToInvalid (Span.Marks line) (scan line ++ [endOf line]) := by
  intro us t vs hts hus
  have hend : (endOf line : Token String) = ⟨.eof, .point (0 + byteLength line.toList)⟩ := by
    rw [Nat.zero_add, byteLength_eq, String.ofList_toList]
    rfl
  rw [hend] at hts
  obtain ⟨before, text, hline, hascii, hspan⟩ := upToInvalid_scanFrom us t vs hts hus
  rw [hspan, Nat.zero_add, Nat.zero_add]
  refine ⟨⟨before, (List.prefix_append before text).trans hline, hascii, rfl⟩,
    ⟨before ++ text, hline, rfl⟩, ?_⟩
  show byteLength before ≤ byteLength (before ++ text)
  rw [byteLength_append]
  exact Nat.le_add_right _ _

/-- A token of a line that is blamed at a mark is an invalid character, or marks ASCII. -/
theorem marksAscii_or_stray {line : String} {t : Token String} (ht : t ∈ scan line)
    (hmarks : t.span.Marks line) :
    t.span.MarksAscii line ∨ t.kind = .invalid ∧ ∃ before c after,
      t.span.Covers line before (String.singleton c) after ∧ Text.Ascii before.toList := by
  obtain ⟨before, text, after, hcovers, hascii, -⟩ := hmarks.exists_covers
  obtain ⟨before', text', after', hcovers', -, hkind⟩ := (scan_tokenizes line).part t ht
  obtain ⟨rfl, rfl⟩ := hcovers.unique hcovers'
  rcases hkind with hmunched | hstray
  · refine .inl ⟨hmarks.start, ?_, hmarks.le⟩
    refine ⟨(before ++ text).toList, ?_, ?_, ?_⟩
    · obtain rfl := hcovers.line_eq
      exact ⟨after.toList, String.toList_append.symm⟩
    · rw [String.toList_append]
      exact Text.ascii_append hascii hmunched.pattern.ascii
    · rw [hcovers.stop_eq, byteLength_eq, String.ofList_toList]
  · obtain ⟨c, htext, -⟩ := hstray.single
    obtain rfl : text = String.singleton c := String.toList_inj.1 (by rw [htext]; simp)
    exact .inr ⟨hstray.invalid, before, c, after, hcovers, hascii⟩

/-- A valid token of a line up to which the line is valid marks ASCII, as the end of such a line
does. -/
theorem marksAscii_of_valid {line : String}
    (hvalid : ∀ t ∈ scan line ++ [endOf line], t.kind.isInvalid = false) :
    ∀ t ∈ scan line ++ [endOf line], t.span.MarksAscii line := by
  intro t ht
  obtain ⟨us, vs, hsplit⟩ := List.append_of_mem ht
  have hmarks : t.span.Marks line := upToInvalid_scan line us t vs hsplit fun u hu =>
    hvalid u (hsplit ▸ List.mem_append_left _ hu)
  rcases List.mem_append.1 ht with hscan | hend
  · rcases marksAscii_or_stray hscan hmarks with hascii | ⟨hinvalid, -⟩
    · exact hascii
    · have hkind := hvalid t ht
      rw [hinvalid] at hkind
      cases hkind
  · obtain rfl := List.mem_singleton.1 hend
    exact ⟨hmarks.start, hmarks.start, le_rfl⟩

end Token

end Reckoner

import Reckoner.Proofs.Names
import Reckoner.Proofs.Renaming.Parse
import Reckoner.Proofs.Token.Order
import Reckoner.Proofs.Token.Pattern

/-!
Maximal munch. The tokens of a line stand for parts of it that follow each other, with separators
only between them: each part is the longest text at its place that matches a pattern, or a single
character at which no such text starts. The names in the tokens lead back to these parts. -/

namespace Reckoner

/-- The span covers `text` on the line, with `before` in front of it and `after` behind it. -/
structure Span.Covers (s : Span) (line before text after : String) : Prop where
  line_eq : line = before ++ text ++ after
  start_eq : s.start = before.utf8ByteSize
  stop_eq : s.stop = (before ++ text).utf8ByteSize

theorem Span.Covers.le_utf8ByteSize {s : Span} {line before text after : String}
    (h : s.Covers line before text after) :
    s.start ≤ line.utf8ByteSize ∧ s.stop ≤ line.utf8ByteSize := by
  have hline := congrArg String.utf8ByteSize h.line_eq
  have hstart := h.start_eq
  have hstop := h.stop_eq
  rw [String.utf8ByteSize_append] at hline hstop
  rw [String.utf8ByteSize_append] at hline
  omega

theorem Span.eq_of_ofRange? {start stop : Nat} {s : Span} (h : ofRange? start stop = .ok s) :
    s = ⟨start, stop⟩ := by
  rw [ofRange?] at h
  split_ifs at h
  exact (Except.ok.inj h).symm

namespace TokenKind

variable {α β : Type}

/-- The text matches the pattern of the kind, and no longer text at its place is a lexeme. -/
structure Munched (k : TokenKind α) (text after : List Char) : Prop where
  pattern : k.Pattern text
  longest : ∀ lexeme, IsLexeme lexeme → lexeme <+: text ++ after → lexeme.length ≤ text.length

/-- The text is a single character, no separator, and no text at its place is a lexeme. -/
structure Stray (k : TokenKind α) (text after : List Char) : Prop where
  invalid : k = .invalid
  single : ∃ c, text = [c] ∧ Token.isSeparator c = false
  hopeless : ∀ lexeme, IsLexeme lexeme → ¬lexeme <+: text ++ after

@[simp] theorem pattern_map (f : α → β) (k : TokenKind α) : (k.map f).Pattern = k.Pattern := by
  cases k <;> rfl

/-- What matches a pattern is a lexeme, whatever the token carries. -/
theorem isLexeme_of_pattern {k : TokenKind α} {text : List Char} (h : k.Pattern text) :
    IsLexeme text :=
  ⟨k.map fun _ => (), by rw [pattern_map]; exact h⟩

theorem Munched.map {k : TokenKind α} {text after : List Char} (f : α → β)
    (h : k.Munched text after) : (k.map f).Munched text after :=
  ⟨by rw [pattern_map]; exact h.pattern, h.longest⟩

theorem Stray.map {k : TokenKind α} {text after : List Char} (f : α → β) (h : k.Stray text after) :
    (k.map f).Stray text after :=
  ⟨by rw [h.invalid]; rfl, h.single, h.hopeless⟩

/-- No text is munched as the end of the line, and no stray character is. -/
theorem ne_eof_of_munched_or_stray {k : TokenKind α} {text after : List Char}
    (h : k.Munched text after ∨ k.Stray text after) : k ≠ .eof := by
  rintro rfl
  rcases h with h | h
  · exact h.pattern
  · cases h.invalid

end TokenKind

namespace Token

variable {c : Char} {cs : List Char}

theorem byteLength_eq (cs : List Char) : byteLength cs = (String.ofList cs).utf8ByteSize := by
  induction cs with
  | nil => rfl
  | cons c cs ih =>
    rw [byteLength, List.foldr_cons, ← byteLength, ih, String.utf8ByteSize_ofList,
      String.utf8ByteSize_ofList, String.utf8Len_cons, Nat.add_comm]

theorem byteLength_append (cs ds : List Char) :
    byteLength (cs ++ ds) = byteLength cs + byteLength ds := by
  rw [byteLength_eq, String.ofList_append, String.utf8ByteSize_append, ← byteLength_eq,
    ← byteLength_eq]

/-! ### One token -/

/-- What the scanner takes at a character that is no separator. -/
theorem munched_or_stray_munch (hc : isSeparator c = false) :
    (munch c cs).1.Munched (c :: (munch c cs).2.1) (munch c cs).2.2 ∨
      (munch c cs).1.Stray (c :: (munch c cs).2.1) (munch c cs).2.2 := by
  have happend : c :: (munch c cs).2.1 ++ (munch c cs).2.2 = c :: cs :=
    congrArg (c :: ·) (munch_append c cs)
  rcases pattern_munch c cs with ⟨hinvalid, hnone⟩ | hpattern
  · refine .inr ⟨hinvalid, ⟨c, by rw [hnone], hc⟩, fun lexeme h hfront => ?_⟩
    rw [happend] at hfront
    exact (prefix_munch h hfront).1 hinvalid
  · refine .inl ⟨hpattern, fun lexeme h hfront => ?_⟩
    rw [happend] at hfront
    exact (prefix_munch h hfront).2.length_le

/-! ### The scan -/

/-- The token stands for a part of the characters, whose first one stands at byte `offset`. -/
def IsPart (offset : Nat) (cs : List Char) (t : Token String) : Prop :=
  ∃ before text after, cs = before ++ text ++ after ∧
    t.span = ⟨offset + byteLength before, offset + byteLength (before ++ text)⟩ ∧
      (∀ s ∈ t.kind.payload?, s = String.ofList text) ∧
        (t.kind.Munched text after ∨ t.kind.Stray text after)

/-- Each token of a scan stands for a part of the characters that are scanned. -/
theorem isPart_of_mem_scanFrom {offset : Nat} {cs : List Char} :
    ∀ t ∈ scanFrom offset cs, IsPart offset cs t := by
  fun_induction scanFrom offset cs with
  | case1 => simp
  | case2 offset c cs hsep ih =>
    intro t ht
    obtain ⟨before, text, after, rfl, hspan, hkind⟩ := ih t ht
    refine ⟨c :: before, text, after, rfl, ?_, hkind⟩
    rw [hspan, Nat.add_assoc, Nat.add_assoc]
    rfl
  | case3 offset c cs hsep taken stop ih =>
    have happend : c :: taken.2.1 ++ taken.2.2 = c :: cs := congrArg (c :: ·) (munch_append c cs)
    intro t ht
    rcases List.mem_cons.1 ht with rfl | ht
    · exact ⟨[], c :: taken.2.1, taken.2.2, happend.symm, rfl, payload_munch c cs,
        munched_or_stray_munch (Bool.eq_false_iff.2 hsep)⟩
    · obtain ⟨before, text, after, hrest, hspan, hkind⟩ := ih t ht
      refine ⟨c :: taken.2.1 ++ before, text, after, ?_, ?_, hkind⟩
      · rw [← happend, hrest]
        simp only [List.append_assoc]
      · rw [hspan]
        simp only [stop, List.append_assoc, byteLength_append, Nat.add_assoc]

/-- A character that a scan goes over is a separator, or a token covers it. -/
theorem covered_scanFrom {d : Char} (hd : isSeparator d = false) {offset : Nat} {cs : List Char} :
    ∀ before after, cs = before ++ d :: after →
      ∃ t ∈ scanFrom offset cs, t.span.start ≤ offset + byteLength before ∧
        offset + byteLength before < t.span.stop := by
  fun_induction scanFrom offset cs with
  | case1 =>
    intro before after hcs
    exact absurd hcs.symm (by simp)
  | case2 offset c cs hsep ih =>
    intro before after hcs
    cases before with
    | nil =>
      obtain ⟨rfl, -⟩ := List.cons.inj hcs
      exact absurd hsep (Bool.eq_false_iff.1 hd)
    | cons b before =>
      obtain ⟨rfl, hrest⟩ := List.cons.inj hcs
      obtain ⟨t, ht, hspan⟩ := ih before after hrest
      rw [Nat.add_assoc] at hspan
      exact ⟨t, ht, hspan⟩
  | case3 offset c cs hsep taken stop ih =>
    intro before after hcs
    have happend : c :: taken.2.1 ++ taken.2.2 = before ++ d :: after := by
      rw [← hcs]
      exact congrArg (c :: ·) (munch_append c cs)
    have hlater : ∀ skipped, before = c :: taken.2.1 ++ skipped → taken.2.2 = skipped ++ d :: after →
        ∃ t ∈ scanFrom stop taken.2.2, t.span.start ≤ offset + byteLength before ∧
          offset + byteLength before < t.span.stop := by
      rintro skipped rfl hrest
      rw [byteLength_append, ← Nat.add_assoc]
      exact ih skipped after hrest
    rcases List.append_eq_append_iff.1 happend with ⟨skipped, hbefore, hrest⟩ | ⟨covered, htext, hd⟩
    · obtain ⟨t, ht, hspan⟩ := hlater skipped hbefore hrest
      exact ⟨t, List.mem_cons_of_mem _ ht, hspan⟩
    · cases covered with
      | nil =>
        obtain ⟨t, ht, hspan⟩ := hlater [] (by simpa using htext.symm) hd.symm
        exact ⟨t, List.mem_cons_of_mem _ ht, hspan⟩
      | cons b covered =>
        refine ⟨_, List.mem_cons_self, Nat.le_add_right _ _, ?_⟩
        have hpos := byteLength_cons_pos b covered
        show _ < offset + byteLength (c :: taken.2.1)
        rw [htext, byteLength_append]
        omega

/-! ### Lines -/

/-- Tokens are what maximal munch makes of a line, where `spell` says which texts they carry. -/
structure Tokenizes {α : Type} (spell : α → String) (line : String) (ts : List (Token α)) : Prop
    where
  inOrder : InOrder ts
  part : ∀ t ∈ ts, ∃ before text after, t.span.Covers line before text after ∧
    (∀ a ∈ t.kind.payload?, spell a = text) ∧
      (t.kind.Munched text.toList after.toList ∨ t.kind.Stray text.toList after.toList)
  gaps : ∀ c before after, line = before ++ String.singleton c ++ after →
    c ∈ [' ', '\t', '\r', '\n', '\x0c'] ∨
      ∃ t ∈ ts, t.span.start ≤ before.utf8ByteSize ∧ before.utf8ByteSize < t.span.stop

theorem scan_tokenizes (line : String) : Tokenizes id line (scan line) := by
  refine ⟨inOrder_scan line, fun t ht => ?_, fun c before after hline => ?_⟩
  · obtain ⟨before, text, after, hline, hspan, htext, hkind⟩ := isPart_of_mem_scanFrom t ht
    rw [Nat.zero_add, Nat.zero_add] at hspan
    refine ⟨.ofList before, .ofList text, .ofList after, ⟨?_, ?_, ?_⟩, htext, ?_⟩
    · rw [← String.ofList_append, ← String.ofList_append, ← hline, String.ofList_toList]
    · rw [hspan, ← byteLength_eq]
    · rw [hspan, ← String.ofList_append, ← byteLength_eq]
    · rwa [String.toList_ofList, String.toList_ofList]
  · cases hc : isSeparator c with
    | true => exact .inl (by simpa [isSeparator, or_assoc] using hc)
    | false =>
      have hcs : line.toList = before.toList ++ c :: after.toList := by simp [hline]
      have hcovered := @covered_scanFrom c hc 0 line.toList before.toList after.toList hcs
      rw [Nat.zero_add, byteLength_eq, String.ofList_toList] at hcovered
      exact .inr hcovered

/-- A point or an exponent mark without digits behind it is not taken into the number. -/
example : scan "1.5e+x 2.y" = [⟨.number "1.5", ⟨0, 3⟩⟩, ⟨.ident "e", ⟨3, 4⟩⟩, ⟨.plus, ⟨4, 5⟩⟩,
    ⟨.ident "x", ⟨5, 6⟩⟩, ⟨.number "2", ⟨7, 8⟩⟩, ⟨.invalid, ⟨8, 9⟩⟩, ⟨.ident "y", ⟨9, 10⟩⟩] := by
  cbv

/-- Tokens may be given other texts that spell the same. -/
theorem Tokenizes.map {α β : Type} {spell : α → String} {line : String} {ts : List (Token α)}
    {f : α → β} {spell' : β → String} (h : Tokenizes spell line ts)
    (hspell : ∀ t ∈ ts, ∀ a ∈ t.kind.payload?, spell' (f a) = spell a) :
    Tokenizes spell' line (ts.map (Token.map f)) := by
  refine ⟨h.inOrder.map f, fun t ht => ?_, fun c before after hline => ?_⟩
  · obtain ⟨u, hu, rfl⟩ := List.mem_map.1 ht
    obtain ⟨before, text, after, hcovers, htext, hkind⟩ := h.part u hu
    refine ⟨before, text, after, hcovers, ?_, hkind.imp (.map f) (.map f)⟩
    intro b hb
    obtain ⟨a, ha, rfl⟩ := Option.mem_map.1 (TokenKind.payload?_map f u.kind ▸ hb)
    rw [hspell u hu a ha, htext a ha]
  · refine (h.gaps c before after hline).imp_right ?_
    rintro ⟨t, ht, hspan⟩
    exact ⟨t.map f, List.mem_map_of_mem ht, hspan⟩

/-! ### No other cut -/

/-- The kind of a token is told by its text. -/
theorem kind_munch {k : TokenKind String} {text : List Char} (h : k.Pattern (c :: text))
    (hpayload : ∀ s ∈ k.payload?, s = String.ofList (c :: text)) (htext : (munch c cs).2.1 = text) :
    (munch c cs).1 = k := by
  subst htext
  have hword : isWordStart c = true →
      (munch c cs).1 = wordKind (String.ofList (c :: (munch c cs).2.1)) := by
    intro hc
    rw [munch, if_neg (not_isDigit_of_isWordStart hc), if_pos hc]
  cases k with
  | number s =>
    rw [hpayload s rfl, munch, if_pos (isDigit_of_isNumber h)]
  | ident s =>
    obtain rfl := hpayload s rfl
    rw [hword (isWordStart_of_isWord h.1), wordKind, if_neg]
    exact fun hkeyword => h.2 (by rw [← String.toList_ofList (l := c :: _), hkeyword]; rfl)
  | ret =>
    have hc : isWordStart c = true := by
      obtain ⟨rfl, -⟩ := List.cons.inj h
      rfl
    rw [hword hc, show c :: (munch c cs).2.1 = _ from h]
    rfl
  | invalid | eof => cases h
  | plus | minus | star | slash | caret | lparen | rparen | eq =>
    obtain ⟨rfl, -⟩ := List.cons.inj h
    rfl

/-- What stands for the text at a character is what the scanner takes there. -/
theorem munch_of_munched_or_stray {k : TokenKind String} {text after : List Char}
    (hcs : c :: cs = text ++ after) (hpayload : ∀ s ∈ k.payload?, s = String.ofList text)
    (h : k.Munched text after ∨ k.Stray text after) :
    (munch c cs).1 = k ∧ c :: (munch c cs).2.1 = text := by
  have htaken : c :: (munch c cs).2.1 <+: text ++ after := by
    rw [← hcs, List.prefix_cons_inj]
    exact ⟨_, munch_append c cs⟩
  rcases h with h | h
  · obtain ⟨hvalid, htext⟩ := prefix_munch (TokenKind.isLexeme_of_pattern h.pattern)
      (hcs ▸ List.prefix_append text after)
    have hpattern := (pattern_munch c cs).resolve_left fun hnone => hvalid hnone.1
    have hlength := h.longest _ (TokenKind.isLexeme_of_pattern hpattern) htaken
    obtain rfl := htext.eq_of_length_le hlength
    exact ⟨kind_munch h.pattern hpayload rfl, rfl⟩
  · obtain ⟨d, rfl, -⟩ := h.single
    obtain ⟨rfl, rfl⟩ := List.cons.inj hcs
    rcases pattern_munch c cs with ⟨hinvalid, hnone⟩ | hpattern
    · exact ⟨hinvalid.trans h.invalid.symm, by rw [hnone]⟩
    · exact absurd htaken (h.hopeless _ (TokenKind.isLexeme_of_pattern hpattern))

/-- Neither separators nor the end of the line stand where a token starts. -/
theorem exists_cons_of_munched_or_stray {k : TokenKind String} {text after : List Char}
    (h : k.Munched text after ∨ k.Stray text after) :
    ∃ d ds, text = d :: ds ∧ isSeparator d = false := by
  rcases h with h | h
  · have hlexeme := TokenKind.isLexeme_of_pattern h.pattern
    obtain ⟨d, ds, rfl⟩ := List.exists_cons_of_ne_nil hlexeme.ne_nil
    exact ⟨d, ds, rfl, hlexeme.not_isSeparator⟩
  · obtain ⟨d, rfl, hd⟩ := h.single
    exact ⟨d, [], rfl, hd⟩

theorem IsPart.skip {offset : Nat} {t : Token String} (hc : isSeparator c = true)
    (h : IsPart offset (c :: cs) t) : IsPart (offset + c.utf8Size) cs t := by
  obtain ⟨before, text, after, hcs, hspan, htext, hkind⟩ := h
  cases before with
  | nil =>
    obtain ⟨d, ds, rfl, hd⟩ := exists_cons_of_munched_or_stray hkind
    obtain ⟨rfl, -⟩ := List.cons.inj hcs
    rw [hc] at hd
    cases hd
  | cons b before =>
    obtain ⟨rfl, rfl⟩ := List.cons.inj hcs
    refine ⟨before, text, after, rfl, ?_, htext, hkind⟩
    rw [hspan, Nat.add_assoc, Nat.add_assoc]
    rfl

/-- A part behind a text is a part of what comes after the text. -/
theorem IsPart.behind {offset : Nat} {text rest : List Char} {t : Token String}
    (h : IsPart offset (text ++ rest) t) (hstart : offset + byteLength text ≤ t.span.start) :
    IsPart (offset + byteLength text) rest t := by
  obtain ⟨before, part, after, hcs, hspan, htext, hkind⟩ := h
  have hle : offset + byteLength text ≤ offset + byteLength before := by rwa [hspan] at hstart
  rw [List.append_assoc] at hcs
  have hbefore : ∃ skipped, before = text ++ skipped ∧ rest = skipped ++ (part ++ after) := by
    rcases List.append_eq_append_iff.1 hcs with ⟨skipped, hbefore, hrest⟩ | ⟨covered, rfl, hrest⟩
    · exact ⟨skipped, hbefore, hrest⟩
    · cases covered with
      | nil => exact ⟨[], by simp, hrest.symm⟩
      | cons b covered =>
        have hpos := byteLength_cons_pos b covered
        rw [byteLength_append] at hle
        omega
  obtain ⟨skipped, rfl, rfl⟩ := hbefore
  refine ⟨skipped, part, after, (List.append_assoc ..).symm, ?_, htext, hkind⟩
  rw [hspan]
  simp only [List.append_assoc, byteLength_append, Nat.add_assoc]

theorem IsPart.le_start {offset : Nat} {t : Token String} (h : IsPart offset cs t) :
    offset ≤ t.span.start := by
  obtain ⟨before, text, after, -, hspan, -, -⟩ := h
  rw [hspan]
  exact Nat.le_add_right _ _

/-- A part that starts no later than the first character is what the scanner takes there. -/
theorem IsPart.eq_munch {offset : Nat} {t : Token String} (h : IsPart offset (c :: cs) t)
    (hstart : t.span.start ≤ offset) :
    t = ⟨(munch c cs).1, ⟨offset, offset + byteLength (c :: (munch c cs).2.1)⟩⟩ := by
  obtain ⟨before, text, after, hcs, hspan, htext, hkind⟩ := h
  cases before with
  | nil =>
    obtain ⟨hkind', htext'⟩ := munch_of_munched_or_stray hcs htext hkind
    rw [hkind', htext']
    exact congrArg (Token.mk t.kind) hspan
  | cons b before =>
    have hpos := byteLength_cons_pos b before
    have hle : offset + byteLength (b :: before) ≤ offset := by rwa [hspan] at hstart
    omega

/-- Of tokens in order, the one that covers the first place is the first one. -/
theorem InOrder.eq_cons {offset : Nat} {ts : List (Token String)} (h : InOrder ts)
    (hoffset : ∀ t ∈ ts, offset ≤ t.span.start) {t : Token String} (ht : t ∈ ts)
    (hstart : t.span.start ≤ offset) : ∃ us, ts = t :: us := by
  cases ts with
  | nil => cases ht
  | cons u us =>
    rcases List.mem_cons.1 ht with rfl | ht
    · exact ⟨us, rfl⟩
    · have hu := h.nonempty u List.mem_cons_self
      have hle := (List.pairwise_cons.1 h.apart).1 t ht
      have hge := hoffset u List.mem_cons_self
      omega

/-- Tokens in order that stand for parts and leave only separators out are those of the scan. -/
theorem eq_scanFrom {offset : Nat} {cs : List Char} : ∀ ts : List (Token String), InOrder ts →
    (∀ t ∈ ts, IsPart offset cs t) →
    (∀ d before after, cs = before ++ d :: after → isSeparator d = false →
      ∃ t ∈ ts, t.span.start ≤ offset + byteLength before ∧
        offset + byteLength before < t.span.stop) →
    ts = scanFrom offset cs := by
  fun_induction scanFrom offset cs with
  | case1 offset =>
    intro ts _ hpart _
    refine List.eq_nil_iff_forall_not_mem.2 fun t ht => ?_
    obtain ⟨before, text, after, hcs, -, -, hkind⟩ := hpart t ht
    obtain ⟨d, ds, rfl, -⟩ := exists_cons_of_munched_or_stray hkind
    exact absurd hcs.symm (by simp)
  | case2 offset c cs hsep ih =>
    intro ts horder hpart hgaps
    refine ih ts horder (fun t ht => (hpart t ht).skip hsep) fun d before after hcs hd => ?_
    rw [Nat.add_assoc]
    exact hgaps d (c :: before) after (congrArg (c :: ·) hcs) hd
  | case3 offset c cs hsep taken stop ih =>
    intro ts horder hpart hgaps
    have happend : c :: taken.2.1 ++ taken.2.2 = c :: cs := congrArg (c :: ·) (munch_append c cs)
    obtain ⟨t, ht, hstart, -⟩ := hgaps c [] cs rfl (Bool.eq_false_iff.2 hsep)
    obtain ⟨us, rfl⟩ := horder.eq_cons (fun t ht => (hpart t ht).le_start) ht hstart
    obtain rfl := (hpart t ht).eq_munch hstart
    have hbehind := (List.pairwise_cons.1 horder.apart).1
    refine congrArg (List.cons _) (ih us horder.tail (fun u hu => ?_) fun d before after hcs hd => ?_)
    · exact IsPart.behind (happend ▸ hpart u (List.mem_cons_of_mem _ hu)) (hbehind u hu)
    · obtain ⟨u, hu, hle, hlt⟩ := hgaps d (c :: taken.2.1 ++ before) after
        (by rw [← happend, hcs, List.append_assoc]) hd
      rw [byteLength_append, ← Nat.add_assoc] at hle hlt
      rcases List.mem_cons.1 hu with rfl | hu
      · exact absurd hlt (Nat.not_lt.2 (Nat.le_add_right _ _))
      · exact ⟨u, hu, hle, hlt⟩

/-- Only the tokens of the scan are what maximal munch makes of a line. -/
theorem Tokenizes.eq_scan {α : Type} {spell : α → String} {line : String} {ts : List (Token α)}
    (h : Tokenizes spell line ts) : ts.map (Token.map spell) = scan line := by
  have hspelled : Tokenizes id line (ts.map (Token.map spell)) := h.map fun _ _ _ _ => rfl
  refine eq_scanFrom _ hspelled.inOrder (fun t ht => ?_) fun d before after hline hd => ?_
  · obtain ⟨before, text, after, hcovers, htext, hkind⟩ := hspelled.part t ht
    refine ⟨before.toList, text.toList, after.toList, ?_, ?_, ?_, hkind⟩
    · rw [hcovers.line_eq, String.toList_append, String.toList_append]
    · rw [← String.toList_append, byteLength_eq, byteLength_eq, String.ofList_toList,
        String.ofList_toList, Nat.zero_add, Nat.zero_add, ← hcovers.start_eq, ← hcovers.stop_eq]
    · rwa [String.ofList_toList]
  · have hstring : line = .ofList before ++ String.singleton d ++ .ofList after :=
      String.toList_inj.1 (by simp [hline])
    rw [Nat.zero_add, byteLength_eq]
    refine (hspelled.gaps d (.ofList before) (.ofList after) hstring).resolve_left ?_
    simpa [isSeparator, and_assoc] using hd

/-! ### The lexer -/

/-- The scan with names is maximal munch, too. -/
theorem scanWith_tokenizes (names : NameTable) (line : String) :
    Tokenizes (lex names line).2.text line (scanWith names line).1 :=
  (scan_tokenizes line).map fun _ ht _ hs =>
    text_nameOf_scanWith names line (List.mem_filterMap.2 ⟨_, List.mem_map_of_mem ht, hs⟩)

/-- The tokens, if each of their spans fits in words; otherwise what is wrong with the first that does
not. -/
def fitAll {α : Type} : List (Token α) → Except String (List (Token α))
  | [] => .ok []
  | t :: ts =>
    match Span.ofRange? t.span.start t.span.stop with
    | .ok span => (fitAll ts).map (⟨t.kind, span⟩ :: ·)
    | .error e => .error e.message

/-- What the lexer gives, or the message that it ends with on a line that is too long. -/
def lex? (names : NameTable) (line : String) : Except String (List (Token Name) × NameTable) :=
  (fitAll (lex names line).1).map (·, (lex names line).2)

variable {α : Type} {ts : List (Token α)}

theorem fitAll_of_fits (h : ∀ t ∈ ts, Span.ofRange? t.span.start t.span.stop = .ok t.span) :
    fitAll ts = .ok ts := by
  induction ts with
  | nil => rfl
  | cons t ts ih =>
    obtain ⟨ht, hts⟩ := List.forall_mem_cons.1 h
    rw [fitAll, ht, ih hts]
    rfl

/-- The first span that does not fit tells the message. -/
theorem exists_of_not_fits
    (h : ¬∀ t ∈ ts, Span.ofRange? t.span.start t.span.stop = .ok t.span) :
    ∃ before t after e, ts = before ++ t :: after ∧
      (∀ u ∈ before, Span.ofRange? u.span.start u.span.stop = .ok u.span) ∧
      Span.ofRange? t.span.start t.span.stop = .error e ∧ fitAll ts = .error e.message := by
  induction ts with
  | nil => exact absurd nofun h
  | cons t ts ih =>
    rw [fitAll]
    cases ht : Span.ofRange? t.span.start t.span.stop with
    | error e => exact ⟨[], t, ts, e, rfl, nofun, ht, rfl⟩
    | ok span =>
      obtain rfl : span = t.span := Span.eq_of_ofRange? ht
      have hts := fun hts => h (List.forall_mem_cons.2 ⟨ht, hts⟩)
      obtain ⟨before, u, after, e, rfl, hbefore, herror, hall⟩ := ih hts
      refine ⟨t :: before, u, after, e, rfl, ?_, herror, by rw [hall]; rfl⟩
      exact List.forall_mem_cons.2 ⟨ht, hbefore⟩

/-- All spans fit as long as the end of the line does. -/
theorem fits_lex_iff (names : NameTable) (line : String) :
    (∀ t ∈ (lex names line).1, Span.ofRange? t.span.start t.span.stop = .ok t.span) ↔
      line.utf8ByteSize < Span.limit := by
  constructor
  · intro hfit
    by_contra hsize
    have hend := hfit (endOf line) (List.mem_append_right _ (List.mem_singleton.2 rfl))
    cases (if_pos (Nat.not_lt.1 hsize)).symm.trans hend
  · intro hsize t ht
    have hbounds : t.span.start ≤ line.utf8ByteSize ∧ t.span.stop ≤ line.utf8ByteSize := by
      rcases List.mem_append.1 ht with ht | ht
      · obtain ⟨before, text, after, hcovers, -, -⟩ := (scanWith_tokenizes names line).part t ht
        exact hcovers.le_utf8ByteSize
      · obtain rfl := List.mem_singleton.1 ht
        exact ⟨le_rfl, le_rfl⟩
    rw [Span.ofRange?, if_neg (by omega), if_neg (by omega)]

/-- The lexer cuts each line by maximal munch, puts one end-of-line token behind it, and names the
texts it cuts out. Whatever other tokens maximal munch makes of the line, they are the same tokens
with the same texts. Offsets fit in their words as long as the length of the line does; on a longer
line, the first span that does not fit tells the message that the lexer ends with. -/
theorem lex_tokenizes (names : NameTable) (line : String) :
    ∃ body, (lex names line).1 = body ++ [⟨.eof, ⟨line.utf8ByteSize, line.utf8ByteSize⟩⟩] ∧
      (∀ t ∈ body, t.kind ≠ .eof) ∧ Tokenizes (lex names line).2.text line body ∧
        (∀ (α : Type) (spell : α → String) (ts : List (Token α)), Tokenizes spell line ts →
          ts.map (Token.map spell) = body.map (Token.map (lex names line).2.text)) ∧
        (line.utf8ByteSize < Span.limit → (∀ t ∈ (lex names line).1,
          Span.ofRange? t.span.start t.span.stop = .ok t.span) ∧
            lex? names line = .ok (lex names line)) ∧
        (Span.limit ≤ line.utf8ByteSize → ∃ before t after e,
          (lex names line).1 = before ++ t :: after ∧
          (∀ u ∈ before, Span.ofRange? u.span.start u.span.stop = .ok u.span) ∧
          Span.ofRange? t.span.start t.span.stop = .error e ∧
          lex? names line = .error e.message) := by
  have hbody := scanWith_tokenizes names line
  refine ⟨(scanWith names line).1, rfl, fun t ht => ?_, hbody,
    fun α spell ts hts => hts.eq_scan.trans hbody.eq_scan.symm, fun hsize => ?_, fun hsize => ?_⟩
  · obtain ⟨before, text, after, -, -, hkind⟩ := hbody.part t ht
    exact TokenKind.ne_eof_of_munched_or_stray hkind
  · have hfit := (fits_lex_iff names line).2 hsize
    exact ⟨hfit, by rw [lex?, fitAll_of_fits hfit]; rfl⟩
  · have hunfit := mt (fits_lex_iff names line).1 (Nat.not_lt.2 hsize)
    obtain ⟨before, t, after, e, hts, hbefore, herror, hall⟩ := exists_of_not_fits hunfit
    exact ⟨before, t, after, e, hts, hbefore, herror, by rw [lex?, hall]; rfl⟩

end Token

end Reckoner

import Reckoner.Token.Scan

/-!
Tokens stand in the order of their line. A scan goes over the line from left to right and never
back, so each token covers at least one byte and ends before the next one starts. -/

namespace Reckoner.Token

/-- Tokens none of which is empty, each behind those in front of it in the list. -/
structure InOrder {α : Type} (ts : List (Token α)) : Prop where
  nonempty : ∀ t ∈ ts, t.span.start < t.span.stop
  apart : ts.Pairwise fun a b => a.span.stop ≤ b.span.start

namespace InOrder

variable {α β : Type} {ts us : List (Token α)}

theorem append_left (h : InOrder (ts ++ us)) : InOrder ts :=
  ⟨fun t ht => h.nonempty t (List.mem_append_left us ht), (List.pairwise_append.1 h.apart).1⟩

theorem append_right (h : InOrder (ts ++ us)) : InOrder us :=
  ⟨fun t ht => h.nonempty t (List.mem_append_right ts ht), (List.pairwise_append.1 h.apart).2.1⟩

theorem tail {t : Token α} (h : InOrder (t :: ts)) : InOrder ts :=
  (show InOrder ([t] ++ ts) from h).append_right

theorem le_of_append (h : InOrder (ts ++ us)) {t u : Token α} (ht : t ∈ ts) (hu : u ∈ us) :
    t.span.stop ≤ u.span.start :=
  (List.pairwise_append.1 h.apart).2.2 t ht u hu

theorem map (f : α → β) (h : InOrder ts) : InOrder (ts.map (Token.map f)) := by
  refine ⟨?_, ?_⟩
  · intro t ht
    obtain ⟨u, hu, rfl⟩ := List.mem_map.1 ht
    exact h.nonempty u hu
  · exact List.pairwise_map.2 h.apart

end InOrder

theorem byteLength_cons_pos (c : Char) (cs : List Char) : 0 < byteLength (c :: cs) := by
  have hpos := c.utf8Size_pos
  rw [byteLength, List.foldr_cons]
  omega

/-- A scan that starts at an offset finds tokens in order, none of them in front of it. -/
theorem inOrder_scanFrom (offset : Nat) (cs : List Char) :
    InOrder (scanFrom offset cs) ∧ ∀ t ∈ scanFrom offset cs, offset ≤ t.span.start := by
  fun_induction scanFrom offset cs with
  | case1 offset => exact ⟨⟨nofun, .nil⟩, nofun⟩
  | case2 offset c cs hsep ih =>
    exact ⟨ih.1, fun t ht => Nat.le_trans (Nat.le_add_right _ _) (ih.2 t ht)⟩
  | case3 offset c cs hsep taken stop ih =>
    have hstop : offset < stop := Nat.lt_add_of_pos_right (byteLength_cons_pos c taken.2.1)
    refine ⟨⟨?_, ?_⟩, ?_⟩
    · intro t ht
      rcases List.mem_cons.1 ht with rfl | ht
      · exact hstop
      · exact ih.1.nonempty t ht
    · exact List.pairwise_cons.2 ⟨fun t ht => ih.2 t ht, ih.1.apart⟩
    · intro t ht
      rcases List.mem_cons.1 ht with rfl | ht
      · exact Nat.le_refl offset
      · exact Nat.le_trans (Nat.le_of_lt hstop) (ih.2 t ht)

theorem inOrder_scan (line : String) : InOrder (scan line) :=
  (inOrder_scanFrom 0 line.toList).1

theorem inOrder_scanWith (names : NameTable) (line : String) :
    InOrder (scanWith names line).1 :=
  (inOrder_scan line).map _

end Reckoner.Token

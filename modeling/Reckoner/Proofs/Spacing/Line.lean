import Reckoner.Program
import Reckoner.Proofs.Diagnostic.Labels
import Reckoner.Proofs.Names
import Reckoner.Proofs.Renaming.Parse
import Reckoner.Proofs.Spacing.Parse
import Reckoner.Source

/-!
Spacing does not matter. Lines whose tokens are of the same kinds, with the same names, are refused
alike or have the same tree wherever its tokens stand, and so they do the same thing. -/

namespace Reckoner

variable {V E : Type}

/-- A line that fails binds no name, whatever its error. -/
theorem Bindings.after_mapError (b : Bindings V) (result : Except (EvalError E) (Outcome Name V))
    (f : EvalError E → EvalError E) : b.after (result.mapError f) = b.after result := by
  cases result <;> rfl

/-- Trees that are the same in no place do the same thing, and fail in the same way. -/
theorem Bindings.evaluate_of_bare_eq [Value V E] (b : Bindings V) (names : NameTable)
    {tree tree' : Tree Name} (h : tree.bare = tree'.bare) :
    (b.evaluate names tree).1.mapError EvalError.bare
        = ((b.evaluate names tree').1.mapError EvalError.bare : Except (EvalError E) _) ∧
      (b.evaluate names tree).2 = (b.evaluate names tree').2 := by
  have hbare := tree.evaluate_bare (E := E) (b.scope names)
  rw [h, Tree.evaluate_bare] at hbare
  obtain ⟨hresult, hattributes⟩ := Prod.ext_iff.1 hbare
  refine ⟨hresult.symm, Prod.ext hattributes.symm ?_⟩
  exact (b.after_mapError _ EvalError.bare).symm.trans
    ((congrArg b.after hresult.symm).trans (b.after_mapError _ EvalError.bare))

namespace Token

theorem kinds_lex (names : NameTable) (line : String) :
    (lex names line).1.map Token.kind = (scanWith names line).1.map Token.kind ++ [.eof] :=
  List.map_append

/-- The table behind a line is told by the kinds of its tokens. -/
theorem names_lex (names : NameTable) (line : String) : (lex names line).2
    = names.internAll (((scan line).map Token.kind).filterMap TokenKind.payload?) := by
  rw [List.filterMap_map]
  rfl

end Token

/-- Lines of the same kinds and names have one tree with other spans, or are refused alike. -/
theorem Tree.ofLine_alike {names names' : NameTable} {line line' : String}
    (hkinds : (Token.lex names line).1.map Token.kind = (Token.lex names' line').1.map Token.kind) :
    (∃ tree tree', (Tree.ofLine names line).1 = .ok tree ∧
      (Tree.ofLine names' line').1 = .ok tree' ∧ tree.bare = tree'.bare) ∨
    ∃ e e', (Tree.ofLine names line).1 = .error e ∧ (Tree.ofLine names' line').1 = .error e' ∧
      ParseError.Alike (Token.lex names line).1 (Token.lex names' line').1 e e' := by
  have hbody : (Token.scanWith names line).1.map Token.kind
      = (Token.scanWith names' line').1.map Token.kind := by
    rw [Token.kinds_lex, Token.kinds_lex] at hkinds
    exact List.append_cancel_right hkinds
  have heof : ∀ t ∈ (Token.scanWith names line).1, t.kind.isEof = false := by
    intro t ht
    obtain ⟨u, hu, rfl⟩ := List.mem_map.1 ht
    rw [Token.map, TokenKind.isEof_map]
    exact Token.isEof_of_mem_scan hu
  have hend : ∀ line, (Token.endOf line : Token Name).kind = .eof := fun _ => rfl
  rcases Phrase.ofLine_alike hbody heof (hend line) (hend line')
    with ⟨p, p', hp, hp', hbare⟩ | ⟨e, e', he, he', halike⟩
  · refine .inl ⟨p.toTree, p'.toTree, ?_, ?_, Phrase.bare_toTree_congr hbare⟩
    · exact congrArg (Except.map Phrase.toTree) hp
    · exact congrArg (Except.map Phrase.toTree) hp'
  · refine .inr ⟨e, e', ?_, ?_, halike⟩
    · exact congrArg (Except.map Phrase.toTree) he
    · exact congrArg (Except.map Phrase.toTree) he'

/-- Lines of the same kinds and names parse to one tree with other spans, which does the same thing
in all bindings, or they are refused for the same token; and lines of the same texts leave the same
table of names. -/
theorem spacing_immaterial {names names' : NameTable} {line line' : String}
    (hkinds : (Token.lex names line).1.map Token.kind = (Token.lex names' line').1.map Token.kind) :
    ((∃ tree tree', (Tree.ofLine names line).1 = .ok tree ∧
        (Tree.ofLine names' line').1 = .ok tree' ∧ tree.bare = tree'.bare ∧
        ∀ {V E : Type} [Value V E] (b : Bindings V) (table : NameTable),
          (b.evaluate table tree).1.mapError EvalError.bare
              = ((b.evaluate table tree').1.mapError EvalError.bare : Except (EvalError E) _) ∧
            (b.evaluate table tree).2 = (b.evaluate table tree').2) ∨
      ∃ e e', (Tree.ofLine names line).1 = .error e ∧ (Tree.ofLine names' line').1 = .error e' ∧
        ParseError.Alike (Token.lex names line).1 (Token.lex names' line').1 e e') ∧
      ((Token.scan line).map Token.kind = (Token.scan line').map Token.kind →
        ∀ table : NameTable, (Tree.ofLine table line).2 = (Tree.ofLine table line').2) := by
  refine ⟨?_, fun htexts table => ?_⟩
  · rcases Tree.ofLine_alike hkinds with ⟨tree, tree', htree, htree', hbare⟩ | hrefused
    · exact .inl ⟨tree, tree', htree, htree', hbare,
        fun b table => b.evaluate_of_bare_eq table hbare⟩
    · exact .inr hrefused
  · show (Token.lex table line).2 = (Token.lex table line').2
    rw [Token.names_lex, Token.names_lex, htexts]

/-- Two ways to space `y=2*(1` are refused at the end of the line, for the same parenthesis. -/
theorem spacing_immaterial_unclosed :
    ∃ e e', (Tree.ofLine .initial "y=2*(1").1 = .error e ∧
      (Tree.ofLine .initial "  y = 2 * ( 1 ").1 = .error e' ∧ e.span = ⟨6, 6⟩ ∧
      e'.span = ⟨14, 14⟩ ∧ ParseError.Alike (Token.lex .initial "y=2*(1").1
        (Token.lex .initial "  y = 2 * ( 1 ").1 e e' := by
  have he : (Tree.ofLine .initial "y=2*(1").1.map Tree.root
      = .error (.unclosedParen ⟨4, 5⟩ "end of line" ⟨6, 6⟩) := by cbv
  have he' : (Tree.ofLine .initial "  y = 2 * ( 1 ").1.map Tree.root
      = .error (.unclosedParen ⟨10, 11⟩ "end of line" ⟨14, 14⟩) := by cbv
  rcases (@spacing_immaterial .initial .initial "y=2*(1" "  y = 2 * ( 1 " (by cbv)).1
    with ⟨tree, -, htree, -⟩ | ⟨e, e', h, h', halike⟩
  · rw [htree] at he
    cases he
  · rw [h] at he
    rw [h'] at he'
    obtain rfl := Except.error.inj he
    obtain rfl := Except.error.inj he'
    exact ⟨_, _, h, h', rfl, rfl, halike⟩

end Reckoner

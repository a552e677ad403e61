import Mathlib
import Reckoner.Proofs.Options.Binding
import Reckoner.Proofs.Options.Groups

/-!
Options as arguments. A binding that was read from a text is read again from its name and its
expression, as nothing is left to trim; so options can be written as arguments that ask for them. -/

namespace Reckoner

/-! ### Blanks -/

namespace Text

theorem dropWhile_isBlank_of_head {cs : List Char} (h : ∀ c ∈ cs.head?, isBlank c = false) :
    cs.dropWhile isBlank = cs := by
  cases cs with
  | nil => rfl
  | cons c cs => rw [List.dropWhile_cons_of_neg (by simp [h c rfl])]

/-- Nothing is trimmed from a text that neither starts nor ends with a blank. -/
theorem trimChars_of_ends {cs : List Char} (hhead : ∀ c ∈ cs.head?, isBlank c = false)
    (hlast : ∀ c ∈ cs.getLast?, isBlank c = false) : trimChars cs = cs := by
  rw [trimChars, dropWhile_isBlank_of_head hhead, dropWhile_isBlank_of_head, List.reverse_reverse]
  rwa [List.head?_reverse]

theorem trim_of_forall {s : String} (h : ∀ c ∈ s.toList, isBlank c = false) : trim s = s := by
  rw [trim, trimChars_of_ends (fun c hc => h c (List.mem_of_head? hc)) fun c hc =>
    h c (List.mem_of_getLast? hc), String.ofList_toList]

theorem head_dropWhile_isBlank (cs : List Char) :
    ∀ c ∈ (cs.dropWhile isBlank).head?, isBlank c = false := by
  intro c hc
  have hnot := List.head?_dropWhile_not isBlank cs
  rw [hc] at hnot
  simpa using hnot

theorem trim_trim (s : String) : trim (trim s) = trim s := by
  have hends : trimChars (trimChars s.toList) = trimChars s.toList := by
    refine trimChars_of_ends (fun c hc => head_dropWhile_isBlank s.toList c ?_) fun c hc => ?_
    · -- what is left starts as it did before blanks were dropped from its end
      obtain ⟨more, hmore⟩ : trimChars s.toList <+: s.toList.dropWhile isBlank := by
        rw [trimChars, ← List.reverse_suffix, List.reverse_reverse]
        exact List.dropWhile_suffix _
      rw [← hmore, List.head?_append, hc]
      rfl
    · rw [trimChars, List.getLast?_reverse] at hc
      exact head_dropWhile_isBlank _ c hc
  rw [trim, trim, String.toList_ofList, hends]

end Text

namespace Options

/-! ### Options as arguments -/

/-- Bindings that can be read again are groups that ask for them and for nothing else. -/
theorem exists_bindingGroups {bs : List (String × String)}
    (h : ∀ b ∈ bs, parseBinding (b.1 ++ "=" ++ b.2) = .ok b) :
    ∃ gs : List Group, gs.flatMap Group.args = bs.flatMap (fun b => ["--set", b.1 ++ "=" ++ b.2]) ∧
      gs.filterMap Group.binding? = bs ∧ gs.filterMap Group.input? = [] ∧
      gs.filterMap Group.color? = [] ∧ gs.any Group.isFloat = false ∧
      gs.any Group.isEnv = false := by
  induction bs with
  | nil => exact ⟨[], rfl, rfl, rfl, rfl, rfl, rfl⟩
  | cons b bs ih =>
    obtain ⟨hb, hbs⟩ := List.forall_mem_cons.1 h
    obtain ⟨gs, hargs, hbindings, hinputs, hcolors, hfloat, henv⟩ := ih hbs
    exact ⟨.set false _ b hb :: gs, congrArg _ hargs, congrArg _ hbindings, hinputs, hcolors,
      hfloat, henv⟩

theorem splitEquals?_append {cs : List Char} (h : '=' ∉ cs) (rest : List Char) :
    splitEquals? (cs ++ '=' :: rest) = some (cs, rest) := by
  induction cs with
  | nil => rfl
  | cons c cs ih =>
    obtain ⟨hc, hcs⟩ := not_or.1 (mt List.mem_cons.2 h)
    rw [List.cons_append, splitEquals?, if_neg (Ne.symm hc), ih hcs]
    rfl

/-- A binding that has been read is read again from its name and its expression. -/
theorem parseBinding_written {text name expression : String}
    (h : parseBinding text = .ok (name, expression)) :
    parseBinding (name ++ "=" ++ expression) = .ok (name, expression) := by
  have hname : isIdentifier name = true := isIdentifier_of_parseBinding h
  obtain ⟨hexpression, hne⟩ : Text.trim expression = expression ∧ expression.isEmpty = false := by
    rw [parseBinding] at h
    split at h
    · cases h
    · dsimp only at h
      split at h
      · rename_i hvalid
        obtain ⟨-, rfl⟩ := Prod.mk.inj (Except.ok.inj h)
        exact ⟨Text.trim_trim _, by simpa using (Bool.and_eq_true_iff.1 hvalid).2⟩
      · cases h
  have hpattern : (TokenKind.ident name).Pattern name.toList :=
    Token.isIdentifier_iff_pattern.1 hname
  have htrim : Text.trim name = name :=
    Text.trim_of_forall fun c hc => (hpattern.lexical c hc).not_isBlank
  have hequals : '=' ∉ name.toList := by
    obtain ⟨⟨c, cs, hc, hcs, hlist⟩, -⟩ := hpattern
    rw [hlist, List.mem_cons, not_or]
    refine ⟨?_, fun hmem => absurd (hcs _ hmem) (by decide)⟩
    rintro rfl
    exact absurd hc (by decide)
  have hsplit : splitEquals? (name ++ "=" ++ expression).toList
      = some (name.toList, expression.toList) := by
    rw [String.toList_append, String.toList_append, List.append_assoc]
    exact splitEquals?_append hequals _
  rw [parseBinding, hsplit]
  dsimp only
  rw [String.ofList_toList, String.ofList_toList, htrim, hexpression, hname, hne]
  rfl

/-- The argument that names the input. -/
def inputArg : Input → String
  | .stdin => "-"
  | .file path => path

/-- The word that names the mode. -/
def colorText : ColorMode → String
  | .auto => "auto"
  | .always => "always"
  | .never => "never"

/-- Arguments that ask for the options. -/
def toArgs (o : Options) : List String :=
  [inputArg o.input] ++ (if o.mode = .float then ["--float"] else [])
    ++ (if o.showBindings then ["--env"] else [])
    ++ o.bindings.flatMap (fun b => ["--set", b.1 ++ "=" ++ b.2])
    ++ ["--color=" ++ colorText o.color]

/-- What the options quote can be read as an argument again. -/
structure Writable (o : Options) : Prop where
  input : Positional (inputArg o.input) ∧ Input.ofArg (inputArg o.input) = o.input
  bindings : ∀ b ∈ o.bindings, parseBinding (b.1 ++ "=" ++ b.2) = .ok b

theorem writable_ofGroups {gs : List Group} {i : Input} (h : gs.filterMap Group.input? = [i]) :
    (ofGroups i gs).Writable := by
  constructor
  · have hmem : i ∈ gs.filterMap Group.input? := by rw [h]; exact .head _
    obtain ⟨g, -, hg⟩ := List.mem_filterMap.1 hmem
    cases g with
    | input arg valid =>
      obtain rfl := Option.some.inj hg
      have harg : inputArg (.ofArg arg) = arg := by
        by_cases hdash : arg = "-" <;> simp [Input.ofArg, inputArg, hdash]
      show Positional (inputArg (.ofArg arg)) ∧ Input.ofArg (inputArg (.ofArg arg)) = .ofArg arg
      rw [harg]
      exact ⟨valid, rfl⟩
    | float | env | set | color => cases hg
  · intro b hb
    obtain ⟨g, -, hg⟩ := List.mem_filterMap.1 hb
    cases g with
    | set joined text binding valid =>
      obtain rfl := Option.some.inj hg
      exact parseBinding_written valid
    | float | env | color | input => cases hg

/-- Such options are written as groups that ask for them. -/
theorem Writable.exists_groups {o : Options} (h : o.Writable) :
    ∃ gs : List Group, o.toArgs = gs.flatMap Group.args ∧ gs.filterMap Group.input? = [o.input] ∧
      ofGroups o.input gs = o := by
  obtain ⟨input, mode, bindings, showBindings, color⟩ := o
  obtain ⟨hpositional, hinput⟩ := h.input
  obtain ⟨sets, hargs, hbindings, hinputs, hcolors, hfloat, henv⟩ := exists_bindingGroups h.bindings
  have hcolor : ColorMode.ofText? (colorText color) = .ok color := by cases color <;> rfl
  refine ⟨[Group.input _ hpositional] ++ (if mode = .float then [Group.float false] else [])
    ++ (if showBindings then [Group.env] else []) ++ sets ++ [Group.color _ color hcolor],
    ?_, ?_, ?_⟩
  · simp only [toArgs, List.flatMap_append, hargs]
    cases mode <;> cases showBindings <;> rfl
  · simp only [List.filterMap_append, hinputs]
    cases mode <;> cases showBindings <;> exact congrArg (fun i => [i]) hinput
  · simp only [ofGroups, List.filterMap_append, List.any_append, hbindings, hcolors, hfloat, henv]
    cases mode <;> cases showBindings <;>
      simp [List.filterMap_cons, Group.isFloat, Group.isEnv, Group.binding?, Group.color?]

/-! ### Arguments -/

/-- The arguments of groups with one input ask for what the groups do, in any order that keeps the
order of the bindings and that of the colour modes; options that arguments ask for are asked for by
the arguments that they are written as; and arguments are refused for the first of them that is
wrong, or for the input that is missing if none is. -/
theorem ofArgs_reads_groups :
    (∀ {gs : List Group} {i : Input}, gs.filterMap Group.input? = [i] →
      ofArgs (gs.flatMap Group.args) = .ok (ofGroups i gs) ∧
      ∀ gs' : List Group, gs'.Perm gs →
        gs'.filter (fun g => g.binding?.isSome) = gs.filter (fun g => g.binding?.isSome) →
        gs'.filter (fun g => g.color?.isSome) = gs.filter (fun g => g.color?.isSome) →
        ofArgs (gs'.flatMap Group.args) = ofArgs (gs.flatMap Group.args)) ∧
    (∀ {args : List String} {o : Options}, ofArgs args = .ok o → ofArgs o.toArgs = .ok o) ∧
    ∀ (args : List String) (e : OptionError), ofArgs args = .error e ↔
      (∃ (gs : List Group) (rest : List String), args = gs.flatMap Group.args ++ rest ∧
        (gs.filterMap Group.input?).length ≤ 1 ∧
        Offends (gs.filterMap Group.input? ≠ []) rest e) ∨
      e = .missingInput ∧
        ∃ gs : List Group, args = gs.flatMap Group.args ∧ gs.filterMap Group.input? = [] := by
  refine ⟨fun {gs i} h => ⟨ofArgs_groups h, fun gs' hperm hset hcolor => ?_⟩, fun {args o} h => ?_,
    fun args e => ⟨fun h => ?_, ?_⟩⟩
  · have hinputs : gs'.filterMap Group.input? = [i] :=
      List.perm_singleton.1 (h ▸ hperm.filterMap Group.input?)
    rw [ofArgs_groups hinputs, ofArgs_groups h, ofGroups_perm hperm hset hcolor]
  · obtain ⟨gs, ⟨rfl, hnone | ⟨i, hi⟩⟩ | ⟨rest, e, rfl, hinputs, he⟩⟩ := groups_or_offends args
    · rw [ofArgs_groups_nil hnone] at h
      cases h
    · rw [ofArgs_groups hi] at h
      obtain rfl := Except.ok.inj h
      obtain ⟨written, hwritten, hinput, hasks⟩ := (writable_ofGroups hi).exists_groups
      rw [hwritten, ofArgs_groups hinput, hasks]
    · rw [ofArgs_of_offends hinputs he] at h
      cases h
  · obtain ⟨gs, ⟨rfl, hnone | ⟨i, hi⟩⟩ | ⟨rest, e', rfl, hinputs, he⟩⟩ := groups_or_offends args
    · rw [ofArgs_groups_nil hnone] at h
      exact .inr ⟨(Except.error.inj h).symm, gs, rfl, hnone⟩
    · rw [ofArgs_groups hi] at h
      cases h
    · rw [ofArgs_of_offends hinputs he] at h
      obtain rfl := Except.error.inj h
      exact .inl ⟨gs, rest, rfl, hinputs, he⟩
  · rintro (⟨gs, rest, rfl, hinputs, he⟩ | ⟨rfl, gs, rfl, hnone⟩)
    · exact ofArgs_of_offends hinputs he
    · exact ofArgs_groups_nil hnone

/-- A flag and the input in front of bindings and colour modes, and behind them. -/
theorem ofArgs_reads_groups_flags_behind :
    let o : Options := ⟨.stdin, .float, [("x", "1"), ("x", "x=2")], true, .never⟩
    ofArgs ["-f", "-", "--set", "x = 1", "--color=always", "--set=x=x=2", "--env", "--color=never"]
        = .ok o ∧
      ofArgs ["--set", "x = 1", "--color=always", "--set=x=x=2", "--env", "--color=never", "-f",
        "-"] = .ok o ∧
      ofArgs ["-", "--float", "--env", "--set", "x=1", "--set", "x=x=2", "--color=never"]
        = .ok o := by
  intro o
  let flags : List Group := [.float true, .input "-" (by decide)]
  let values : List Group := [.set false "x = 1" ("x", "1") (by cbv), .color "always" .always rfl,
    .set true "x=x=2" ("x", "x=2") (by cbv), .env, .color "never" .never rfl]
  have hinputs : (flags ++ values).filterMap Group.input? = [.stdin] := rfl
  obtain ⟨hread, hanyOrder⟩ := ofArgs_reads_groups.1 hinputs
  have hread : ofArgs _ = .ok o := hread
  exact ⟨hread, (hanyOrder (values ++ flags) List.perm_append_comm rfl rfl).trans hread,
    ofArgs_reads_groups.2.1 hread⟩

end Options

end Reckoner

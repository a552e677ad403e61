import Mathlib
import Reckoner.Options

/-!
Groups of arguments. The arguments of a run are read in groups: a flag, a binding, whose text may be
an argument of its own, a colour mode, or the input. What groups ask for depends on their order only
in what the bindings have for one, and in which colour mode is the last. Arguments that are not such
groups are wrong behind the longest row of groups that they start with. -/

namespace Reckoner

/-! ### Groups of arguments -/

/-- The rest of a text is what stands behind its beginning. -/
theorem Options.behind?_eq_some_iff {lead text rest : String} :
    behind? lead text = some rest ↔ text = lead ++ rest := by
  rw [behind?, ← String.length_toList]
  split
  · rename_i hlead
    obtain ⟨more, htext⟩ := List.isPrefixOf_iff_prefix.1 hlead
    rw [← htext, List.drop_left, Option.some_inj, ← String.toList_inj, ← String.toList_inj,
      String.toList_append, ← htext, List.append_cancel_left_eq, String.toList_ofList]
  · rename_i hlead
    refine iff_of_false nofun ?_
    rintro rfl
    refine hlead ?_
    rw [String.toList_append]
    exact List.isPrefixOf_iff_prefix.2 (List.prefix_append _ _)

/-- Whether an argument is no option. -/
def Options.Positional (arg : String) : Prop := arg = "-" ∨ arg.toList.head? ≠ some '-'

instance (arg : String) : Decidable (Options.Positional arg) := inferInstanceAs (Decidable (_ ∨ _))

namespace Options

/-- Arguments that are read together. -/
inductive Group where
  | float (short : Bool)
  | env
  | set (joined : Bool) (text : String) (binding : String × String)
      (valid : parseBinding text = .ok binding)
  | color (text : String) (mode : ColorMode) (valid : ColorMode.ofText? text = .ok mode)
  | input (arg : String) (valid : Positional arg)

namespace Group

/-- The arguments of the group. -/
def args : Group → List String
  | float short => [if short then "-f" else "--float"]
  | env => ["--env"]
  | set joined text _ _ => if joined then ["--set=" ++ text] else ["--set", text]
  | color text _ _ => ["--color=" ++ text]
  | input arg _ => [arg]

/-- Whether the group asks for floating-point values. -/
def isFloat : Group → Bool
  | float _ => true
  | _ => false

/-- Whether the group asks to show the bindings. -/
def isEnv : Group → Bool
  | env => true
  | _ => false

/-- The binding that the group asks for. -/
def binding? : Group → Option (String × String)
  | set _ _ binding _ => some binding
  | _ => none

/-- The colour mode that the group asks for. -/
def color? : Group → Option ColorMode
  | color _ mode _ => some mode
  | _ => none

/-- The input that the group asks for. -/
def input? : Group → Option Input
  | input arg _ => some (.ofArg arg)
  | _ => none

end Group

/-- What groups ask for that have one input. -/
def ofGroups (input : Input) (gs : List Group) : Options where
  input := input
  mode := if gs.any Group.isFloat then .float else .integer
  bindings := gs.filterMap Group.binding?
  showBindings := gs.any Group.isEnv
  color := (gs.filterMap Group.color?).getLast?.getD .auto

/-- The first of the arguments is wrong; an input is wrong if another one stands in front. -/
inductive Offends (seen : Prop) : List String → OptionError → Prop where
  | missingValue : Offends seen ["--set"] (.missingValue "--set")
  | set {text : String} (h : ∀ binding, parseBinding text ≠ .ok binding) (rest : List String) :
      Offends seen ("--set" :: text :: rest) (.invalidBinding text)
  | joined {text : String} (h : ∀ binding, parseBinding text ≠ .ok binding) (rest : List String) :
      Offends seen (("--set=" ++ text) :: rest) (.invalidBinding text)
  | color {text : String} (h : text ∉ ["auto", "always", "never"]) (rest : List String) :
      Offends seen (("--color=" ++ text) :: rest) (.invalidColor text)
  | unknown {arg : String} (h : ¬Positional arg) (hflag : arg ∉ ["--float", "-f", "--env", "--set"])
      (hset : ∀ text, arg ≠ "--set=" ++ text) (hcolor : ∀ text, arg ≠ "--color=" ++ text)
      (rest : List String) : Offends seen (arg :: rest) (.unknownOption arg)
  | extra {arg : String} (h : Positional arg) (hseen : seen) (rest : List String) :
      Offends seen (arg :: rest) (.extraInput arg)

/-! ### One argument -/

theorem positional_iff {arg : String} :
    Positional arg ↔ ((behind? "-" arg).isSome && arg != "-") = false := by
  have hdash : (behind? "-" arg).isSome = true ↔ arg.toList.head? = some '-' := by
    rw [Option.isSome_iff_exists]
    simp only [behind?_eq_some_iff]
    constructor
    · rintro ⟨rest, rfl⟩
      simp
    · intro h
      obtain ⟨cs, hcs⟩ := List.head?_eq_some_iff.1 h
      exact ⟨.ofList cs, by rw [← String.toList_inj, hcs]; simp⟩
  rw [Positional, Ne, ← hdash]
  cases (behind? "-" arg).isSome <;> by_cases h : arg = "-" <;> simp [h]

theorem parseBinding_error {text : String} {e : OptionError} (h : parseBinding text = .error e) :
    e = .invalidBinding text := by
  rw [parseBinding] at h
  split at h
  · exact (Except.error.inj h).symm
  · dsimp only at h
    split at h
    · cases h
    · exact (Except.error.inj h).symm

theorem exists_ofText? {text : String} (h : text ∈ ["auto", "always", "never"]) :
    ∃ mode, ColorMode.ofText? text = .ok mode := by
  simp only [List.mem_cons, List.not_mem_nil, or_false] at h
  rcases h with rfl | rfl | rfl <;> exact ⟨_, rfl⟩

theorem ofText?_of_not_mem {text : String} (h : text ∉ ["auto", "always", "never"]) :
    ColorMode.ofText? text = .error (.invalidColor text) := by
  unfold ColorMode.ofText?
  split
  · exact absurd (by decide) h
  · exact absurd (by decide) h
  · exact absurd (by decide) h
  · rfl

namespace Draft

variable {d : Draft}

/-- What has been read, with a group more. -/
def add (d : Draft) : Group → Draft
  | .float _ => { d with mode := .float }
  | .env => { d with showBindings := true }
  | .set _ _ binding _ => { d with bindings := d.bindings ++ [binding] }
  | .color _ mode _ => { d with color := mode }
  | .input arg _ => { d with input := some (.ofArg arg) }

theorem readAll_cons {arg : String} (h : arg ≠ "--set") (d : Draft) (rest : List String) :
    d.readAll (arg :: rest) = match d.read arg with
      | .ok d => d.readAll rest
      | .error e => .error e :=
  readAll.eq_4 d arg rest (fun h' _ => h h') fun _ _ h' _ => h h'

theorem read_joined (d : Draft) (text : String) : d.read ("--set=" ++ text) = d.bind text := by
  have hset : behind? "--set=" ("--set=" ++ text) = some text := behind?_eq_some_iff.2 rfl
  rw [read, if_neg (by simp [← String.toList_inj]), if_neg (by simp [← String.toList_inj]), hset]

theorem read_color (d : Draft) (text : String) :
    d.read ("--color=" ++ text) = (ColorMode.ofText? text).map fun color => { d with color } := by
  have hset : behind? "--set=" ("--color=" ++ text) = none := by
    refine Option.eq_none_iff_forall_ne_some.2 fun rest h => ?_
    rw [behind?_eq_some_iff, ← String.toList_inj] at h
    simp at h
  have hcolor : behind? "--color=" ("--color=" ++ text) = some text := behind?_eq_some_iff.2 rfl
  rw [read, if_neg (by simp [← String.toList_inj]), if_neg (by simp [← String.toList_inj]), hset,
    hcolor]

/-- An argument that is none of the flags and has no value in it is an input, or unknown. -/
theorem read_of_ne {arg : String} (hflag : arg ∉ ["--float", "-f", "--env", "--set"])
    (hset : ∀ text, arg ≠ "--set=" ++ text) (hcolor : ∀ text, arg ≠ "--color=" ++ text)
    (d : Draft) :
    d.read arg = if (behind? "-" arg).isSome && arg != "-" then .error (.unknownOption arg)
      else if d.input.isNone then .ok { d with input := some (.ofArg arg) }
      else .error (.extraInput arg) := by
  obtain ⟨hfloat, hshort, henv, -⟩ :
      arg ≠ "--float" ∧ arg ≠ "-f" ∧ arg ≠ "--env" ∧ arg ≠ "--set" := by
    simpa using hflag
  have hset : behind? "--set=" arg = none := Option.eq_none_iff_forall_ne_some.2 fun text h =>
    hset text (behind?_eq_some_iff.1 h)
  have hcolor : behind? "--color=" arg = none := Option.eq_none_iff_forall_ne_some.2 fun text h =>
    hcolor text (behind?_eq_some_iff.1 h)
  rw [read, if_neg (by simp [hfloat, hshort]), if_neg henv, hset, hcolor]

/-- What is no option is none of them. -/
theorem positional_ne {arg : String} (h : Positional arg) :
    arg ∉ ["--float", "-f", "--env", "--set"] ∧ (∀ text, arg ≠ "--set=" ++ text) ∧
      ∀ text, arg ≠ "--color=" ++ text := by
  refine ⟨fun hmem => ?_, fun text htext => ?_, fun text htext => ?_⟩
  · simp only [List.mem_cons, List.not_mem_nil, or_false] at hmem
    rcases hmem with rfl | rfl | rfl | rfl <;> exact absurd h (by decide)
  · subst htext
    simp [Positional, ← String.toList_inj] at h
  · subst htext
    simp [Positional, ← String.toList_inj] at h

theorem read_positional {arg : String} (h : Positional arg) (d : Draft) :
    d.read arg = if d.input.isNone then .ok { d with input := some (.ofArg arg) }
      else .error (.extraInput arg) := by
  obtain ⟨hflag, hset, hcolor⟩ := positional_ne h
  rw [read_of_ne hflag hset hcolor, if_neg (Bool.eq_false_iff.1 (positional_iff.1 h))]

/-! ### Groups -/

/-- A group is read on its own, unless it is a second input. -/
theorem readAll_group (g : Group) (h : g.input? = none ∨ d.input = none) (rest : List String) :
    d.readAll (g.args ++ rest) = (d.add g).readAll rest := by
  cases g with
  | float short =>
    cases short <;> exact readAll_cons (by decide) d rest
  | env => exact readAll_cons (by decide) d rest
  | set joined text binding valid =>
    have hbind : d.bind text = .ok (d.add (.set joined text binding valid)) := by
      rw [bind, valid]
      rfl
    cases joined with
    | false =>
      show d.readAll ("--set" :: text :: rest) = _
      rw [readAll, hbind]
    | true =>
      show d.readAll (("--set=" ++ text) :: rest) = _
      rw [readAll_cons (by simp [← String.toList_inj]), read_joined, hbind]
  | color text mode valid =>
    show d.readAll (("--color=" ++ text) :: rest) = _
    rw [readAll_cons (by simp [← String.toList_inj]), read_color, valid]
    rfl
  | input arg valid =>
    have hnone : d.input = none := h.resolve_left nofun
    show d.readAll (arg :: rest) = _
    rw [readAll_cons (fun h => (positional_ne valid).1 (by simp [h])), read_positional valid, hnone]
    rfl

/-- No more than one input has been read with the groups. -/
def Admits (d : Draft) (gs : List Group) : Prop :=
  (d.input.toList ++ gs.filterMap Group.input?).length ≤ 1

theorem input_add (d : Draft) (g : Group) : (d.add g).input = g.input?.or d.input := by
  cases g <;> rfl

theorem Admits.of_cons {g : Group} {gs : List Group} (h : d.Admits (g :: gs)) :
    (g.input? = none ∨ d.input = none) ∧ (d.add g).Admits gs := by
  rw [Admits, List.filterMap_cons] at h
  rw [Admits, input_add]
  cases hg : g.input? with
  | none =>
    rw [hg] at h
    exact ⟨.inl rfl, h⟩
  | some i =>
    rw [hg] at h
    cases hinput : d.input with
    | none =>
      rw [hinput] at h
      exact ⟨.inr rfl, h⟩
    | some i' => simp [hinput] at h

theorem readAll_groups {gs : List Group} (h : d.Admits gs) (rest : List String) :
    d.readAll (gs.flatMap Group.args ++ rest) = (gs.foldl add d).readAll rest := by
  induction gs generalizing d with
  | nil => rfl
  | cons g gs ih =>
    obtain ⟨hg, hgs⟩ := h.of_cons
    rw [List.flatMap_cons, List.append_assoc, readAll_group g hg, ih hgs, List.foldl_cons]

/-- What has been read with groups: the last input and the last colour mode count, and bindings are
added to those that are there. -/
theorem foldl_add (gs : List Group) (d : Draft) : gs.foldl add d =
    { input := (d.input.toList ++ gs.filterMap Group.input?).getLast?
      mode := if gs.any Group.isFloat then .float else d.mode
      bindings := d.bindings ++ gs.filterMap Group.binding?
      showBindings := d.showBindings || gs.any Group.isEnv
      color := (gs.filterMap Group.color?).getLast?.getD d.color } := by
  induction gs generalizing d with
  | nil =>
    obtain ⟨input, mode, bindings, showBindings, color⟩ := d
    cases input <;> simp
  | cons g gs ih =>
    rw [List.foldl_cons, ih]
    cases g <;> simp [add, Group.input?, Group.isFloat, Group.binding?, Group.isEnv, Group.color?,
      List.getLast?_cons, List.filterMap_cons]

/-! ### What is wrong -/

/-- An argument that is read by itself is a group, or wrong whatever follows it. -/
theorem read_cases {arg : String} (h : arg ≠ "--set") (d : Draft) :
    (∃ g, g.args = [arg] ∧ (g.input? = none ∨ d.input = none) ∧ d.read arg = .ok (d.add g)) ∨
      ∃ e, d.read arg = .error e ∧ ∀ rest, Offends (d.input ≠ none) (arg :: rest) e := by
  by_cases hset : ∃ text, arg = "--set=" ++ text
  · obtain ⟨text, rfl⟩ := hset
    rw [read_joined, bind]
    cases hparse : parseBinding text with
    | ok binding => exact .inl ⟨.set true text binding hparse, rfl, .inl rfl, rfl⟩
    | error e =>
      obtain rfl := parseBinding_error hparse
      exact .inr ⟨_, rfl, .joined fun binding => by rw [hparse]; exact nofun⟩
  by_cases hcolor : ∃ text, arg = "--color=" ++ text
  · obtain ⟨text, rfl⟩ := hcolor
    rw [read_color]
    by_cases hmode : text ∈ ["auto", "always", "never"]
    · obtain ⟨mode, hmode⟩ := exists_ofText? hmode
      exact .inl ⟨.color text mode hmode, rfl, .inl rfl, by rw [hmode]; rfl⟩
    · exact .inr ⟨_, by rw [ofText?_of_not_mem hmode]; rfl, .color hmode⟩
  by_cases hflag : arg ∈ ["--float", "-f", "--env", "--set"]
  · simp only [List.mem_cons, List.not_mem_nil, or_false] at hflag
    rcases hflag with rfl | rfl | rfl | rfl
    · exact .inl ⟨.float false, rfl, .inl rfl, rfl⟩
    · exact .inl ⟨.float true, rfl, .inl rfl, rfl⟩
    · exact .inl ⟨.env, rfl, .inl rfl, rfl⟩
    · exact absurd rfl h
  have hset : ∀ text, arg ≠ "--set=" ++ text := not_exists.1 hset
  have hcolor : ∀ text, arg ≠ "--color=" ++ text := not_exists.1 hcolor
  by_cases hpositional : Positional arg
  · rw [read_positional hpositional]
    cases hinput : d.input with
    | none => exact .inl ⟨.input arg hpositional, rfl, .inr rfl, rfl⟩
    | some i => exact .inr ⟨_, rfl, .extra hpositional nofun⟩
  · refine .inr ⟨_, ?_, .unknown hpositional hflag hset hcolor⟩
    rw [read_of_ne hflag hset hcolor, if_pos]
    exact Bool.ne_false_iff.1 (mt positional_iff.2 hpositional)

theorem ne_set {arg : String} {args : List String} (hlast : arg = "--set" → args = [] → False)
    (hvalue : ∀ text rest, arg = "--set" → args = text :: rest → False) : arg ≠ "--set" := by
  rintro rfl
  cases args with
  | nil => exact hlast rfl rfl
  | cons text rest => exact hvalue text rest rfl rfl

/-- Arguments are groups and, if these are not all, something wrong behind them. -/
theorem exists_groups (d : Draft) (args : List String) :
    ∃ gs rest, args = gs.flatMap Group.args ++ rest ∧ d.Admits gs ∧
      (rest = [] ∨ ∃ e, Offends ((gs.foldl add d).input ≠ none) rest e) := by
  have hnone : ∀ d : Draft, d.Admits [] := by
    intro d
    cases h : d.input <;> simp [Admits, h]
  have hcons : ∀ {d : Draft} {g : Group} {args : List String}, (g.input? = none ∨ d.input = none) →
      (∃ gs rest, args = gs.flatMap Group.args ++ rest ∧ (d.add g).Admits gs ∧
        (rest = [] ∨ ∃ e, Offends ((gs.foldl add (d.add g)).input ≠ none) rest e)) →
      ∃ gs rest, g.args ++ args = gs.flatMap Group.args ++ rest ∧ d.Admits gs ∧
        (rest = [] ∨ ∃ e, Offends ((gs.foldl add d).input ≠ none) rest e) := by
    rintro d g args hg ⟨gs, rest, rfl, hadmits, hrest⟩
    refine ⟨g :: gs, rest, by rw [List.flatMap_cons, List.append_assoc], ?_, hrest⟩
    rw [Admits, input_add] at hadmits
    rw [Admits, List.filterMap_cons]
    rcases hg with hg | hinput
    · rwa [hg] at hadmits ⊢
    · rw [hinput] at hadmits ⊢
      cases hg : g.input? <;> simpa [hg] using hadmits
  fun_induction readAll d args with
  | case1 d => exact ⟨[], [], rfl, hnone d, .inl rfl⟩
  | case2 d => exact ⟨[], ["--set"], rfl, hnone d, .inr ⟨_, .missingValue⟩⟩
  | case3 d text args d' hbind ih =>
    cases hparse : parseBinding text with
    | error e =>
      rw [bind, hparse] at hbind
      cases hbind
    | ok binding =>
      rw [bind, hparse] at hbind
      obtain rfl := Except.ok.inj hbind
      exact hcons (g := .set false text binding hparse) (.inl rfl) ih
  | case4 d text args e hbind =>
    refine ⟨[], "--set" :: text :: args, rfl, hnone d, .inr ⟨_, .set (fun binding h => ?_) args⟩⟩
    rw [bind, h] at hbind
    cases hbind
  | case5 d arg args hlast hvalue d' hread ih =>
    rcases read_cases (ne_set hlast hvalue) d with ⟨g, hargs, hg, hadd⟩ | ⟨e, herror, -⟩
    · rw [hread] at hadd
      obtain rfl := Except.ok.inj hadd
      have hgroups := hcons hg ih
      rwa [hargs] at hgroups
    · rw [hread] at herror
      cases herror
  | case6 d arg args hlast hvalue e hread =>
    rcases read_cases (ne_set hlast hvalue) d with ⟨g, -, -, hadd⟩ | ⟨e, -, hoffends⟩
    · rw [hread] at hadd
      cases hadd
    · exact ⟨[], arg :: args, rfl, hnone d, .inr ⟨e, hoffends args⟩⟩

/-- Reading stops at what is wrong. -/
theorem readAll_of_offends {seen : Prop} {args : List String} {e : OptionError}
    (h : Offends seen args e) (hseen : seen → d.input ≠ none) : d.readAll args = .error e := by
  have hbind : ∀ {text : String}, (∀ binding, parseBinding text ≠ .ok binding) →
      d.bind text = .error (.invalidBinding text) := by
    intro text hinvalid
    cases hparse : parseBinding text with
    | ok binding => exact absurd hparse (hinvalid binding)
    | error e =>
      rw [bind, hparse, parseBinding_error hparse]
      rfl
  cases h with
  | missingValue => rfl
  | set h rest => rw [readAll, hbind h]
  | joined h rest => rw [readAll_cons (by simp [← String.toList_inj]), read_joined, hbind h]
  | color h rest =>
    rw [readAll_cons (by simp [← String.toList_inj]), read_color, ofText?_of_not_mem h]
    rfl
  | unknown h hflag hset hcolor rest =>
    rw [readAll_cons (fun h => hflag (by simp [h])), read_of_ne hflag hset hcolor, if_pos]
    exact Bool.ne_false_iff.1 (mt positional_iff.2 h)
  | extra h hs rest =>
    obtain ⟨i, hi⟩ := Option.ne_none_iff_exists'.1 (hseen hs)
    rw [readAll_cons (fun harg => (positional_ne h).1 (by simp [harg])), read_positional h, hi]
    rfl

end Draft

/-! ### Options from groups -/

theorem finish_foldl_add {gs : List Group} {i : Input} (h : gs.filterMap Group.input? = [i]) :
    (gs.foldl Draft.add {}).finish = .ok (ofGroups i gs) := by
  rw [Draft.foldl_add, h]
  simp [Draft.finish, ofGroups]

theorem ofArgs_groups {gs : List Group} {i : Input} (h : gs.filterMap Group.input? = [i]) :
    ofArgs (gs.flatMap Group.args) = .ok (ofGroups i gs) := by
  have hadmits : Draft.Admits {} gs := by
    rw [Draft.Admits, h]
    exact le_rfl
  have hread := Draft.readAll_groups hadmits []
  rw [List.append_nil] at hread
  rw [ofArgs, hread]
  exact finish_foldl_add h

/-- Groups can be put in another order. -/
theorem ofGroups_perm {gs gs' : List Group} (h : gs'.Perm gs)
    (hset : gs'.filter (fun g => g.binding?.isSome) = gs.filter fun g => g.binding?.isSome)
    (hcolor : gs'.filter (fun g => g.color?.isSome) = gs.filter fun g => g.color?.isSome)
    (i : Input) : ofGroups i gs' = ofGroups i gs := by
  have hfilter : ∀ {β : Type} (f : Group → Option β) (l : List Group),
      l.filterMap f = (l.filter fun g => (f g).isSome).filterMap f := by
    intro β f l
    rw [List.filterMap_filter]
    refine List.filterMap_congr fun g _ => ?_
    cases f g <;> rfl
  rw [ofGroups, ofGroups, h.any_eq, h.any_eq, hfilter Group.binding?, hset,
    ← hfilter Group.binding?, hfilter Group.color?, hcolor, ← hfilter Group.color?]

theorem Offends.mono {seen seen' : Prop} (hseen : seen → seen') {args : List String}
    {e : OptionError} (h : Offends seen args e) : Offends seen' args e := by
  cases h with
  | missingValue => exact .missingValue
  | set h rest => exact .set h rest
  | joined h rest => exact .joined h rest
  | color h rest => exact .color h rest
  | unknown h hflag hset hcolor rest => exact .unknown h hflag hset hcolor rest
  | extra h hs rest => exact .extra h (hseen hs) rest

/-- Arguments that are groups without an input are fine but for the input that is missing. -/
theorem ofArgs_groups_nil {gs : List Group} (h : gs.filterMap Group.input? = []) :
    ofArgs (gs.flatMap Group.args) = .error .missingInput := by
  have hadmits : Draft.Admits {} gs := by
    rw [Draft.Admits, h]
    exact Nat.zero_le 1
  have hread := Draft.readAll_groups hadmits []
  rw [List.append_nil] at hread
  rw [ofArgs, hread, Draft.foldl_add, h]
  rfl

/-- What is wrong behind groups that are read is wrong with the arguments. -/
theorem ofArgs_of_offends {gs : List Group} {rest : List String} {e : OptionError}
    (hinputs : (gs.filterMap Group.input?).length ≤ 1)
    (h : Offends (gs.filterMap Group.input? ≠ []) rest e) :
    ofArgs (gs.flatMap Group.args ++ rest) = .error e := by
  have hadmits : Draft.Admits {} gs := hinputs
  have hseen : gs.filterMap Group.input? ≠ [] → (gs.foldl Draft.add {}).input ≠ none := by
    rw [Draft.foldl_add]
    exact mt List.getLast?_eq_none_iff.1
  rw [ofArgs, Draft.readAll_groups hadmits, Draft.readAll_of_offends h hseen]

/-- All arguments are groups with one input or with none, or there is something wrong behind such
groups. -/
theorem groups_or_offends (args : List String) : ∃ gs : List Group,
    (args = gs.flatMap Group.args ∧
      (gs.filterMap Group.input? = [] ∨ ∃ i, gs.filterMap Group.input? = [i])) ∨
    ∃ rest e, args = gs.flatMap Group.args ++ rest ∧ (gs.filterMap Group.input?).length ≤ 1 ∧
      Offends (gs.filterMap Group.input? ≠ []) rest e := by
  obtain ⟨gs, rest, rfl, hadmits, hrest⟩ := Draft.exists_groups {} args
  have hadmits : (gs.filterMap Group.input?).length ≤ 1 := hadmits
  refine ⟨gs, ?_⟩
  rcases hrest with rfl | ⟨e, he⟩
  · refine .inl ⟨List.append_nil _, ?_⟩
    rcases hinputs : gs.filterMap Group.input? with _ | ⟨i, _ | ⟨i', is⟩⟩
    · exact .inl rfl
    · exact .inr ⟨i, rfl⟩
    · rw [hinputs, List.length_cons, List.length_cons] at hadmits
      omega
  · refine .inr ⟨rest, e, rfl, hadmits, he.mono fun hinput hnil => ?_⟩
    rw [Draft.foldl_add, hnil] at hinput
    exact hinput rfl

end Options

end Reckoner

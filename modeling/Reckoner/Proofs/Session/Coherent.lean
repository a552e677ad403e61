import Reckoner.Proofs.Bindings
import Reckoner.Proofs.Session.Lines

/-!
Sessions read by texts. As long as every bound name is the one that the table gives for its text, a
session is known by the values that texts have there: these decide what it answers to a line, and
what texts added to the table by others cannot change. -/

namespace Reckoner

variable {V E : Type}

namespace Session

/-- Every bound name is the one that the table gives for its text. -/
def Coherent (s : Session V) : Prop :=
  ∀ n v, s.bindings.get? n = some v → s.names.get? (s.names.text n) = some n

variable {s s' : Session V} {later : NameTable}

theorem coherent_withNames (names : NameTable) : (withNames names : Session V).Coherent := nofun

theorem get?_eq_some_iff {x : String} {v : V} : s.get? x = some v ↔
    ∃ n, s.names.get? x = some n ∧ s.bindings.get? n = some v := by
  rw [get?, Option.bind_eq_some_iff]

/-- What others put into the table gives no text a value. -/
theorem get?_of_grows (h : s.Coherent) (hlater : s.names.Grows later) (x : String) :
    ({ s with names := later } : Session V).get? x = s.get? x := by
  refine Option.ext fun v => ?_
  rw [get?_eq_some_iff, get?_eq_some_iff]
  constructor
  · rintro ⟨n, hn, hv⟩
    have hnamed := h n v hv
    have hx : s.names.text n = x := by
      rw [← hlater.text (NameTable.Grows.index_lt hnamed), NameTable.text_of_get? hn]
    exact ⟨n, hx ▸ hnamed, hv⟩
  · rintro ⟨n, hn, hv⟩
    exact ⟨n, hlater.get? hn, hv⟩

theorem coherent_of_grows (h : s.Coherent) (hlater : s.names.Grows later) :
    ({ s with names := later } : Session V).Coherent := by
  intro n v hv
  have hnamed := h n v hv
  rw [hlater.text (NameTable.Grows.index_lt hnamed)]
  exact hlater.get? hnamed

/-- The session after a text that has a name was bound. -/
def assign (s : Session V) (x : String) (v : V) : Session V :=
  { s with bindings := s.bindings.insert (s.names.nameOf x) v }

variable {x : String} (hx : x ∈ s.names.texts) (v : V)

include hx

theorem coherent_assign (h : s.Coherent) : (s.assign x v).Coherent := by
  intro n w hw
  by_cases hn : n = s.names.nameOf x
  · rw [hn]
    show s.names.get? (s.names.text (s.names.nameOf x)) = _
    rw [NameTable.text_nameOf hx, NameTable.get?_eq_some_nameOf hx]
  · rw [assign, Bindings.get?_insert_of_ne hn] at hw
    exact h n w hw

theorem get?_assign (y : String) :
    (s.assign x v).get? y = if y = x then some v else s.get? y := by
  rw [get?, get?, assign]
  split
  · rename_i hy
    rw [hy, NameTable.get?_eq_some_nameOf hx, Option.bind_some, Bindings.get?_insert_self]
  · rename_i hy
    cases hn : s.names.get? y with
    | none => rfl
    | some n =>
      have hne : n ≠ s.names.nameOf x := by
        rintro rfl
        exact hy (by rw [← NameTable.text_of_get? hn, NameTable.text_nameOf hx])
      rw [Option.bind_some, Option.bind_some, Bindings.get?_insert_of_ne hne]

omit hx

/-! ### What a session answers -/

/-- Binding a text answers with the value that it had, and leaves a session in which it is bound. -/
theorem bind_eq (h : s.Coherent) (x : String) (v : V) :
    (s.bind x v).1 = s.get? x ∧ (s.bind x v).2.Coherent ∧
      ∀ y, (s.bind x v).2.get? y = if y = x then some v else s.get? y := by
  have hgrows := NameTable.grows_intern s.names x
  have hname := NameTable.get?_intern s.names x
  have hmem := NameTable.mem_of_get? hname
  have hcoherent := coherent_of_grows h hgrows
  have hassign : (s.bind x v).2
      = ({ s with names := (s.names.intern x).2 } : Session V).assign x v := by
    have hnameOf : (s.names.intern x).2.nameOf x = (s.names.intern x).1 :=
      Option.some.inj ((NameTable.get?_eq_some_nameOf hmem).symm.trans hname)
    rw [bind, assign, hnameOf]
  refine ⟨?_, hassign ▸ coherent_assign hmem v hcoherent, fun y => ?_⟩
  · rw [← get?_of_grows h hgrows, get?, hname, Option.bind_some]
    rfl
  · rw [hassign, get?_assign hmem, get?_of_grows h hgrows]

/-- The entries of a session are the texts that have values in it. -/
theorem mem_entries_iff (h : s.Coherent) {e : String × V} :
    e ∈ s.bindings.entries.map (fun e => (s.names.text e.1, e.2)) ↔ s.get? e.1 = some e.2 := by
  obtain ⟨x, v⟩ := e
  rw [List.mem_map, get?_eq_some_iff]
  constructor
  · rintro ⟨⟨n, w⟩, hmem, heq⟩
    obtain ⟨rfl, rfl⟩ := Prod.mk.inj heq
    have hv := Bindings.get?_eq_some_iff.2 hmem
    exact ⟨n, h n w hv, hv⟩
  · rintro ⟨n, hn, hv⟩
    exact ⟨(n, v), Bindings.get?_eq_some_iff.1 hv, by rw [NameTable.text_of_get? hn]⟩

/-- The entries of a session have different texts. -/
theorem pairwise_entries_ne (h : s.Coherent) :
    (s.bindings.entries.map fun e => (s.names.text e.1, e.2)).Pairwise fun a b => a.1 ≠ b.1 := by
  refine List.pairwise_map.2 (s.bindings.increasing.imp_of_mem ?_)
  intro a b ha hb hlt heq
  have htext : s.names.text a.1 = s.names.text b.1 := heq
  have hname := h a.1 a.2 (Bindings.get?_eq_some_iff.2 ha)
  rw [htext, h b.1 b.2 (Bindings.get?_eq_some_iff.2 hb)] at hname
  exact absurd hlt (by rw [Option.some.inj hname]; exact Nat.lt_irrefl _)

theorem listing_perm (s : Session V) :
    s.listing.Perm (s.bindings.entries.map fun e => (s.names.text e.1, e.2)) :=
  List.mergeSort_perm _ _

theorem pairwise_listing_le (s : Session V) : s.listing.Pairwise fun a b => a.1 ≤ b.1 := by
  have hsorted : s.listing.Pairwise fun a b => decide (a.1 ≤ b.1) = true := by
    refine List.pairwise_mergeSort (fun a b c hab hbc => ?_) (fun a b => ?_) _
    · rw [decide_eq_true_eq] at *
      exact String.le_trans hab hbc
    · rw [← Bool.decide_or, decide_eq_true_eq]
      exact String.le_total a.1 b.1
  exact hsorted.imp of_decide_eq_true

/-- What a session lists are the texts that have values in it, with these. -/
theorem mem_listing_iff (h : s.Coherent) {e : String × V} :
    e ∈ s.listing ↔ s.get? e.1 = some e.2 :=
  (listing_perm s).mem_iff.trans (mem_entries_iff h)

/-- A session lists its variables in increasing order, each of them once. -/
theorem pairwise_listing_lt (h : s.Coherent) : s.listing.Pairwise fun a b => a.1 < b.1 := by
  have hne : s.listing.Pairwise fun a b => a.1 ≠ b.1 :=
    (pairwise_entries_ne h).perm (listing_perm s).symm Ne.symm
  refine ((pairwise_listing_le s).and hne).imp ?_
  rintro a b ⟨hle, hab⟩
  exact lt_of_le_of_ne hle hab

/-- Sessions in which the same texts have the same values list them in the same way. -/
theorem listing_eq (h : s.Coherent) (h' : s'.Coherent) (hget : s.get? = s'.get?) :
    s.listing = s'.listing := by
  have hnodup : ∀ {t : Session V}, t.Coherent → t.listing.Nodup := by
    intro t ht
    refine (pairwise_listing_lt ht).imp ?_
    rintro a _ hlt rfl
    exact lt_irrefl _ hlt
  have hperm : s.listing.Perm s'.listing := by
    refine (List.perm_ext_iff_of_nodup (hnodup h) (hnodup h')).2 fun e => ?_
    rw [mem_listing_iff h, mem_listing_iff h', hget]
  refine hperm.eq_of_pairwise ?_ (pairwise_listing_lt h) (pairwise_listing_lt h')
  intro a b _ _ hab hba
  exact absurd hab (lt_asymm hba)

/-- What a line does where texts have the values `env`. -/
def answerTo [Value V E] (env : String → Option V) (line : String) :
    Except (RunError E) (Outcome String V) :=
  match Tree.spelled line with
  | .error e => .error (.parse 1 e)
  | .ok tree => (tree.evaluate ⟨env, id⟩).1.mapError (.eval 1)

/-- The values of texts after a line. -/
def valuesAfter (env : String → Option V) :
    Except (RunError E) (Outcome String V) → String → Option V
  | .ok (.assigned x v) => fun y => if y = x then some v else env y
  | _ => env

/-- A line has its answer, with its texts in place of names, and its effect from the values that
texts have in the session. -/
theorem evaluateLine_eq [Value V E] (h : s.Coherent) (line : String) :
    (s.evaluateLine line).1.map (Outcome.map (s.evaluateLine line).2.names.text)
        = answerTo s.get? line ∧
      (s.evaluateLine line).2.Coherent ∧
        (s.evaluateLine line).2.get? = valuesAfter s.get? (answerTo s.get? line) := by
  have hgrows := Tree.grows_ofLine s.names line
  have hcoherent := coherent_of_grows h hgrows
  have hget := funext (get?_of_grows h hgrows)
  rw [answerTo]
  cases hspelled : Tree.spelled line with
  | error e =>
    have hline : Tree.ofLine s.names line = (.error e, (Tree.ofLine s.names line).2) :=
      Prod.ext (Tree.ofLine_eq_error_iff.2 hspelled) rfl
    rw [evaluateLine, hline]
    exact ⟨rfl, hcoherent, hget⟩
  | ok t =>
    have hline : Tree.ofLine s.names line
        = (.ok (t.map (Tree.ofLine s.names line).2.nameOf), (Tree.ofLine s.names line).2) := by
      refine Prod.ext ?_ rfl
      rw [Tree.ofLine_eq_spelled, hspelled]
      rfl
    have hvalues : ∀ x ∈ (Tree.ofLine s.names line).2.texts,
        s.bindings.get? ((Tree.ofLine s.names line).2.nameOf x) = s.get? x := by
      intro x hx
      rw [← hget, get?, NameTable.get?_eq_some_nameOf hx, Option.bind_some]
    obtain ⟨hresult, hmem⟩ := Tree.evaluate_eq_spelled hspelled (.refl _) hvalues
    rw [evaluateLine_of_ok hline, Bindings.scope, hresult]
    dsimp only
    generalize (t.evaluate (⟨s.get?, id⟩ : Scope String V)).1 = result at hmem ⊢
    cases result with
    | error e => exact ⟨rfl, hcoherent, hget⟩
    | ok outcome =>
      cases outcome with
      | returned v => exact ⟨rfl, hcoherent, hget⟩
      | assigned x v =>
        have hx := hmem x v rfl
        refine ⟨?_, coherent_assign hx v hcoherent, ?_⟩
        · exact congrArg (fun x => Except.ok (Outcome.assigned x v)) (NameTable.text_nameOf hx)
        · refine funext fun y => (get?_assign (s := ⟨_, s.bindings⟩) hx v y).trans ?_
          rw [get?_of_grows h hgrows]
          rfl

end Session

end Reckoner

import Reckoner.Proofs.Session.Sharing
import Reckoner.Proofs.Text.Bytes

/-!
Sessions side by side. Any number of sessions share any number of tables; each of them keeps its own
bindings and sees the texts that the others put into its table. In every state that steps lead to, a
session's names are those that its table gives for their texts, so that what it lists and what it
finds are the same. -/

namespace Reckoner

variable {V E : Type}

/-- The table that each session uses, the tables, and the bindings of each session. -/
structure Sessions (V : Type) where
  tableOf : Nat → Nat
  tables : Nat → NameTable
  bindings : Nat → Bindings V

namespace Sessions

/-- One of the sessions. -/
def session (w : Sessions V) (i : Nat) : Session V := ⟨w.tables (w.tableOf i), w.bindings i⟩

/-- Sessions without bindings. -/
def start (tableOf : Nat → Nat) (tables : Nat → NameTable) : Sessions V :=
  ⟨tableOf, tables, fun _ => .empty⟩

section Steps

variable [Value V E]

/-- Does a step with one of the sessions. -/
def perform (w : Sessions V) (i : Nat) (step : Session.Step V) : Session.Reply V E × Sessions V :=
  let (reply, s) := (w.session i).perform step
  (reply, { w with
    tables := Function.update w.tables (w.tableOf i) s.names
    bindings := Function.update w.bindings i s.bindings })

/-- The sessions after some steps, each with one of them. -/
def after (w : Sessions V) (steps : List (Nat × Session.Step V)) : Sessions V :=
  steps.foldl (fun w step => (w.perform step.1 step.2).2) w

/-! ### One step -/

variable (w : Sessions V) (i : Nat) (step : Session.Step V)

theorem session_perform : (w.perform i step).2.session i = ((w.session i).perform step).2 := by
  simp [session, perform]

/-- A step with one session does no more to another than add texts to a table that they share. -/
theorem session_perform_other {i j : Nat} (h : j ≠ i) :
    (w.perform i step).2.session j
      = if w.tableOf j = w.tableOf i then
          { w.session j with names := ((w.session i).perform step).2.names }
        else w.session j := by
  split <;> simp_all [session, perform]

theorem exists_grows_perform {i j : Nat} (h : j ≠ i) : ∃ later, (w.session j).names.Grows later ∧
    (w.perform i step).2.session j = { w.session j with names := later } := by
  rw [session_perform_other w step h]
  split
  · rename_i htable
    have hnames : (w.session i).names = (w.session j).names := by simp [session, htable]
    exact ⟨_, hnames ▸ (w.session i).grows_perform step, rfl⟩
  · exact ⟨_, .refl _, rfl⟩

/-- In no session does a bound name differ from the one that the table gives for its text. -/
def Coherent (w : Sessions V) : Prop := ∀ i, (w.session i).Coherent

variable {w}

theorem Coherent.perform (h : w.Coherent) : (w.perform i step).2.Coherent := by
  intro j
  by_cases hj : j = i
  · -- a coherent session is alike to itself, and steps keep sessions alike
    obtain rfl := hj
    have halike : (w.session j).Alike (w.session j) := ⟨h j, h j, rfl⟩
    rw [session_perform]
    exact (halike.perform step).2.left
  · obtain ⟨later, hgrows, hsession⟩ := exists_grows_perform w step hj
    rw [hsession]
    exact Session.coherent_of_grows (h j) hgrows

theorem Coherent.after (h : w.Coherent) (steps : List (Nat × Session.Step V)) :
    (w.after steps).Coherent := by
  induction steps generalizing w with
  | nil => exact h
  | cons step steps ih => exact ih (h.perform step.1 step.2)

/-- A step with one session gives no text another value in any other. -/
theorem get?_perform_of_ne (h : w.Coherent) {i j : Nat} (hj : j ≠ i) (x : String) :
    ((w.perform i step).2.session j).get? x = (w.session j).get? x := by
  obtain ⟨later, hgrows, hsession⟩ := exists_grows_perform w step hj
  rw [hsession]
  exact Session.get?_of_grows (h j) hgrows x

/-! ### Two of the sessions -/

/-- The first two sessions are those of a pair, with one table or with two as the pair has. -/
structure Holds (w : Sessions V) (p : SessionPair V) : Prop where
  shared : p.shared = decide (w.tableOf 0 = w.tableOf 1)
  left : w.session 0 = p.left
  right : w.session 1 = p.right

/-- A step with a session of a pair is a step with that session among all. -/
theorem Holds.perform {p : SessionPair V} (h : w.Holds p) (onRight : Bool) :
    (w.perform onRight.toNat step).1 = (p.withSession onRight (Session.perform · step)).1 ∧
      (w.perform onRight.toNat step).2.Holds
        (p.withSession onRight (Session.perform · step)).2 := by
  obtain ⟨shared, left, right⟩ := p
  obtain ⟨rfl, rfl, rfl⟩ := h
  cases onRight
  · refine ⟨by simp [Sessions.perform, SessionPair.withSession, SessionPair.session], rfl, ?_, ?_⟩
    · simp [SessionPair.withSession, SessionPair.session, session_perform]
    · simp [SessionPair.withSession, SessionPair.renamed, SessionPair.session,
        session_perform_other, eq_comm]
  · refine ⟨by simp [Sessions.perform, SessionPair.withSession, SessionPair.session], rfl, ?_, ?_⟩
    · simp [SessionPair.withSession, SessionPair.renamed, SessionPair.session,
        session_perform_other, eq_comm]
    · simp [SessionPair.withSession, SessionPair.session, session_perform]

/-- The runs of a pair are among those of all sessions. -/
theorem Holds.interleave : ∀ {steps : List (Bool × Session.Step V)} {w : Sessions V}
    {p : SessionPair V}, w.Holds p →
      (w.after (steps.map fun step => (step.1.toNat, step.2))).Holds (p.interleave steps).2
  | [], _, _, h => h
  | (onRight, step) :: _, _, _, h => (h.perform step onRight).2.interleave

end Steps

theorem coherent_start (tableOf : Nat → Nat) (tables : Nat → NameTable) :
    (start tableOf tables : Sessions V).Coherent :=
  fun i => Session.coherent_withNames (tables (tableOf i))

end Sessions

/-- In every state that steps with sessions lead to, whichever of them share a table: each bound name
is one that the table of the session gives for a text; a session lists its variables in the order of
their bytes and without repetition, as many as there are bindings, and lists exactly what it finds.
Binding a text answers with its old value, and changes the value of that text in that session only.
Asking for a value or for the list changes nothing at all, and parsing changes no bindings. -/
theorem reachable_coherent [Value V E] (tableOf : Nat → Nat) (tables : Nat → NameTable)
    (steps : List (Nat × Session.Step V)) (i : Nat) :
    let w := (Sessions.start tableOf tables).after steps
    let s := w.session i
    (∀ n v, s.bindings.get? n = some v → ∃ x, s.names.get? x = some n) ∧
    s.listing.Pairwise (fun a b => Text.bytes a.1 < Text.bytes b.1) ∧
    s.listing.length = s.bindings.size ∧
    (∀ x v, s.get? x = some v ↔ (x, v) ∈ s.listing) ∧
    (∀ x v, (w.perform i (.bind x v)).1 = .replaced (s.get? x) ∧
      (∀ y, ((w.perform i (.bind x v)).2.session i).get? y = if y = x then some v else s.get? y) ∧
      ∀ j ≠ i, ∀ y, ((w.perform i (.bind x v)).2.session j).get? y = (w.session j).get? y) ∧
    (∀ x, (w.perform i (.get x)).2 = w) ∧ (w.perform i .bindings).2 = w ∧
    ∀ source, (w.perform i (.parse source)).2.bindings = w.bindings := by
  intro w s
  have hw : w.Coherent := (Sessions.coherent_start tableOf tables).after steps
  have hs : s.Coherent := hw i
  refine ⟨?_, ?_, ?_, ?_, ?_, ?_, ?_, ?_⟩
  · intro n v hv
    exact ⟨s.names.text n, hs n v hv⟩
  · exact (Session.pairwise_listing_lt hs).imp Text.bytes_lt_bytes
  · simpa [Bindings.size] using (Session.listing_perm s).length_eq
  · intro x v
    exact (Session.mem_listing_iff (e := (x, v)) hs).symm
  · intro x v
    obtain ⟨hold, -, hget⟩ := Session.bind_eq hs x v
    refine ⟨?_, ?_, ?_⟩
    · exact congrArg Session.Reply.replaced hold
    · intro y
      rw [Sessions.session_perform]
      exact hget y
    · intro j hj
      exact Sessions.get?_perform_of_ne _ hw hj
  · intro x
    simp [Sessions.perform, Session.perform, Sessions.session]
  · simp [Sessions.perform, Session.perform, Sessions.session]
  · intro source
    simp [Sessions.perform, Session.perform_parse, Sessions.session]

end Reckoner

import Mathlib
import Reckoner.Proofs.Names.Calls

/-!
How names are stored. A store finds the index of a text in a map and the text of an index in a
table, and a new text is put into both. As long as there are indices left it answers every call like
a table that is searched for its texts, so the map and the table are inverse to each other. -/

namespace Reckoner

/-- Why a text gets no name. -/
inductive NameError where
  | full (count : Nat)
deriving DecidableEq, Repr

/-- The indices of texts, and the texts at their indices. -/
structure NameStore where
  indices : Std.HashMap String Nat
  texts : Array String

namespace NameStore

/-- One more than the largest index, which is a word. -/
def limit : Nat := UInt32.size

/-- The name of a text, if it has one. -/
def get? (s : NameStore) (x : String) : Option Name := s.indices[x]?.map Name.mk

/-- Number of texts named. -/
def size (s : NameStore) : Nat := s.texts.size

/-- Puts a text into the map and at the end of the table. -/
def put (s : NameStore) (x : String) : Name × NameStore :=
  (⟨s.texts.size⟩, ⟨s.indices.insert x s.texts.size, s.texts.push x⟩)

/-- The name of a text, which is put in unless it is there. -/
def enter (s : NameStore) (x : String) : Except NameError (Name × NameStore) :=
  match s.get? x with
  | some n => .ok (n, s)
  | none => if s.size < limit then .ok (s.put x) else .error (.full s.size)

/-- The name of a text. Only one that is not found is entered, where it is looked up again: another
handle may have entered it since. -/
def intern (s : NameStore) (x : String) : Except NameError (Name × NameStore) :=
  match s.get? x with
  | some n => .ok (n, s)
  | none => s.enter x

/-- The text of a name; an index that was never handed out stands for the empty text. -/
def text (s : NameStore) (n : Name) : String := s.texts[n.index]?.getD ""

/-- A store of nothing. -/
def empty : NameStore := ⟨∅, #[]⟩

/-- The store to start from, where the empty text and the keyword have names. -/
def initial : Except NameError NameStore := do
  let (_, s) ← empty.intern ""
  let (_, s) ← s.intern "return"
  return s

/-- Answers a call. -/
def reply (s : NameStore) : NameCall → Except NameError (NameReply × NameStore)
  | .intern x => do let (n, s) ← s.intern x; return (.named n, s)
  | .get x => .ok (.found (s.get? x), s)
  | .text n => .ok (.text (s.text n), s)
  | .size => .ok (.size s.size, s)

/-- Answers calls one after the other, whichever handle of the store each one comes by. -/
def replyAll {H : Type} (s : NameStore) :
    List (H × NameCall) → Except NameError (List NameReply × NameStore)
  | [] => .ok ([], s)
  | (_, call) :: calls => do
    let (r, s) ← s.reply call
    let (rs, s) ← replyAll s calls
    return (r :: rs, s)

/-! ### Stores and tables -/

/-- The store has the texts of the table and finds them by the names that they have there. -/
structure Holds (s : NameStore) (t : NameTable) : Prop where
  texts : s.texts = t.texts
  get? : ∀ x, s.get? x = t.get? x

variable {s : NameStore} {t : NameTable} {x : String}

/-- What is entered is looked up twice, and found or missed both times. -/
theorem intern_eq_enter (s : NameStore) (x : String) : s.intern x = s.enter x := by
  rw [intern, enter]
  cases s.get? x <;> rfl

theorem enter_of_missing (h : s.get? x = none) : s.enter x
    = if s.size < limit then .ok (s.put x) else .error (.full s.size) := by
  rw [enter, h]

theorem Holds.put (h : s.Holds t) (hx : x ∉ t.texts) :
    (s.put x).1 = (t.intern x).1 ∧ (s.put x).2.Holds (t.intern x).2 := by
  have hgrows := NameTable.grows_intern t x
  have hname := NameTable.get?_intern t x
  have hfound : ∀ y, (s.put x).2.get? y = if x = y then some ⟨t.size⟩ else s.get? y := by
    intro y
    rw [NameStore.put, h.texts, NameStore.get?, Std.HashMap.getElem?_insert]
    simp only [beq_iff_eq]
    split <;> rfl
  rw [NameTable.intern_of_notMem hx] at hgrows hname ⊢
  refine ⟨?_, ?_, fun y => ?_⟩
  · rw [NameStore.put, h.texts]
    rfl
  · rw [NameStore.put, h.texts]
  · rw [hfound]
    split
    · rename_i heq
      rw [← heq, hname]
    · rename_i hne
      rw [h.get?]
      cases hy : t.get? y with
      | some n => exact (hgrows.get? hy).symm
      | none =>
        have hmissing : y ∉ (⟨t.texts.push x⟩ : NameTable).texts := by
          have hy' := NameTable.get?_eq_none_iff.1 hy
          simpa [Array.mem_push, eq_comm] using ⟨hy', hne⟩
        exact (NameTable.get?_eq_none_iff.2 hmissing).symm

/-- A text is interned like in the table if the table then has no more texts than indices. -/
theorem Holds.intern (h : s.Holds t) (x : String) (hroom : (t.intern x).2.size ≤ limit) :
    ∃ s', s.intern x = .ok ((t.intern x).1, s') ∧ s'.Holds (t.intern x).2 := by
  by_cases hx : x ∈ t.texts
  · rw [NameStore.intern, h.get?, NameTable.get?_eq_some_nameOf hx, NameTable.intern_of_mem hx]
    exact ⟨s, rfl, h⟩
  · have hput := h.put hx
    rw [NameTable.intern_of_notMem hx] at hput hroom ⊢
    have hsize : s.size < limit := by
      rw [NameStore.size, h.texts]
      simpa [NameTable.size] using hroom
    have hmissing : s.get? x = none := by rw [h.get?, NameTable.get?_eq_none_iff.2 hx]
    refine ⟨(s.put x).2, ?_, hput.2⟩
    rw [intern_eq_enter, enter_of_missing hmissing, if_pos hsize]
    exact congrArg Except.ok (Prod.ext hput.1 rfl)

theorem Holds.reply (h : s.Holds t) (call : NameCall) (hroom : (t.reply call).2.size ≤ limit) :
    ∃ s', s.reply call = .ok ((t.reply call).1, s') ∧ s'.Holds (t.reply call).2 := by
  cases call with
  | intern x =>
    obtain ⟨s', hs', hholds⟩ := h.intern x hroom
    exact ⟨s', by rw [NameStore.reply, hs']; rfl, hholds⟩
  | get x => exact ⟨s, by rw [NameStore.reply, h.get?]; rfl, h⟩
  | text n => exact ⟨s, by rw [NameStore.reply, NameStore.text, h.texts]; rfl, h⟩
  | size => exact ⟨s, by rw [NameStore.reply, NameStore.size, h.texts]; rfl, h⟩

/-- A store answers like the table as long as there are indices left. -/
theorem Holds.replyAll {H : Type} : ∀ {calls : List (H × NameCall)} {s : NameStore} {t : NameTable},
    s.Holds t → (t.replyAll calls).2.size ≤ limit → ∃ s',
      s.replyAll calls = .ok ((t.replyAll calls).1, s') ∧ s'.Holds (t.replyAll calls).2
  | [], s, t, h, _ => ⟨s, rfl, h⟩
  | (handle, call) :: calls, s, t, h, hroom => by
    have hsize := (NameTable.grows_replyAll calls (t.reply call).2).size_le
    obtain ⟨s', hs', hholds⟩ := h.reply call (hsize.trans hroom)
    obtain ⟨s'', hs'', hholds'⟩ := hholds.replyAll hroom
    refine ⟨s'', ?_, hholds'⟩
    rw [NameStore.replyAll, hs']
    show (do let (rs, s) ← s'.replyAll calls; return (_ :: rs, s)) = _
    rw [hs'']
    rfl

theorem holds_empty : empty.Holds ⟨#[]⟩ :=
  ⟨rfl, fun _ => by simp [get?, empty, NameTable.get?]⟩

theorem exists_initial : ∃ s, initial = .ok s ∧ s.Holds NameTable.initial := by
  have htable : ((⟨#[]⟩ : NameTable).intern "").2.intern "return" = (⟨1⟩, NameTable.initial) := by cbv
  obtain ⟨s, hs, hholds⟩ := holds_empty.intern "" (by cbv)
  obtain ⟨s', hs', hholds'⟩ := hholds.intern "return" (by rw [htable]; decide)
  rw [htable] at hs' hholds'
  refine ⟨s', ?_, hholds'⟩
  rw [initial, hs]
  show (do let (_, s) ← s.intern "return"; return s) = _
  rw [hs']
  rfl

/-! ### What is kept -/

/-- What a store keeps of the calls that it has answered: the map and the table are inverse to each
other, the different texts stand in the table in the order in which they came first, and each of
them has the name that was given to it, for ever and alone. A text that has a name is interned once
more without a change; any other one gets the next index. -/
structure Keeps {H : Type} (s : NameStore) (calls : List (H × NameCall))
    (replies : List NameReply) : Prop where
  inverse : ∀ (x : String) (i : Nat), s.indices[x]? = some i ↔ s.texts[i]? = some x
  empty : s.texts[0]? = some ""
  keyword : s.texts[1]? = some "return"
  order : s.texts.toList = ("" :: "return" :: NameCall.interned calls).eraseDups
  get : ∀ x n, s.get? x = some n ↔ Named calls replies x n
  injective : ∀ x y n m, Named calls replies x n → Named calls replies y m → (n = m ↔ x = y)
  text : ∀ x n, Named calls replies x n → s.text n = x
  unknown : ∀ n, (∀ x, ¬ Named calls replies x n) → s.text n = ""
  again : ∀ x n, Named calls replies x n → s.intern x = .ok (n, s)
  fresh : ∀ x, (∀ n, ¬ Named calls replies x n) → s.size < limit →
    ∃ s', s.intern x = .ok (⟨s.size⟩, s') ∧ s'.size = s.size + 1
  unchanged : ∀ call, (∀ x, call ≠ .intern x) → ∃ r, s.reply call = .ok (r, s)

section Kept

variable {H : Type} {calls : List (H × NameCall)} {n : Name}

theorem get?_eq_some_iff : s.get? x = some n ↔ s.indices[x]? = some n.index := by
  rw [get?, Option.map_eq_some_iff]
  constructor
  · rintro ⟨i, hi, rfl⟩
    exact hi
  · intro h
    exact ⟨n.index, h, rfl⟩

theorem Holds.get?_iff_named (h : s.Holds (NameTable.initial.replyAll calls).2) :
    s.get? x = some n ↔ Named calls (NameTable.initial.replyAll calls).1 x n := by
  rw [h.get?, NameTable.get?_replyAll_iff]

theorem Holds.get?_iff_texts (h : s.Holds (NameTable.initial.replyAll calls).2) :
    s.get? x = some n ↔ s.texts[n.index]? = some x := by
  have hdistinct : (NameTable.initial.replyAll calls).2.Distinct := by
    rw [NameTable.snd_replyAll]
    exact NameTable.distinct_initial.internAll _
  rw [h.get?, h.texts, hdistinct.get?_eq_some_iff]

theorem Holds.texts_iff_named (h : s.Holds (NameTable.initial.replyAll calls).2) :
    s.texts[n.index]? = some x ↔ Named calls (NameTable.initial.replyAll calls).1 x n :=
  h.get?_iff_texts.symm.trans h.get?_iff_named

theorem Holds.get?_of_unnamed (h : s.Holds (NameTable.initial.replyAll calls).2)
    (hx : ∀ n, ¬ Named calls (NameTable.initial.replyAll calls).1 x n) : s.get? x = none :=
  Option.eq_none_iff_forall_ne_some.2 fun n hn => hx n (h.get?_iff_named.1 hn)

theorem Holds.keeps (h : s.Holds (NameTable.initial.replyAll calls).2) :
    s.Keeps calls (NameTable.initial.replyAll calls).1 where
  inverse x i := (get?_eq_some_iff (n := ⟨i⟩)).symm.trans h.get?_iff_texts
  empty := (h.texts_iff_named (n := ⟨0⟩)).2 .empty
  keyword := (h.texts_iff_named (n := ⟨1⟩)).2 .keyword
  order := by
    rw [h.texts, NameTable.snd_replyAll, NameTable.distinct_initial.texts_internAll]
    rfl
  get x n := h.get?_iff_named
  injective x y n m hx hy := by
    have hxn := h.texts_iff_named.2 hx
    have hym := h.texts_iff_named.2 hy
    constructor
    · rintro rfl
      exact Option.some.inj (hxn.symm.trans hym)
    · rintro rfl
      exact Option.some.inj ((h.get?_iff_named.2 hx).symm.trans (h.get?_iff_named.2 hy))
  text x n hx := by
    rw [NameStore.text, h.texts_iff_named.2 hx, Option.getD_some]
  unknown n hn := by
    cases hx : s.texts[n.index]? with
    | none => rw [NameStore.text, hx, Option.getD_none]
    | some x => exact absurd (h.texts_iff_named.1 hx) (hn x)
  again x n hx := by
    rw [NameStore.intern, h.get?_iff_named.2 hx]
  fresh x hx hroom := by
    refine ⟨(s.put x).2, ?_, Array.size_push ..⟩
    rw [intern_eq_enter, enter_of_missing (h.get?_of_unnamed hx), if_pos hroom]
    rfl
  unchanged call hcall := by
    cases call with
    | intern x => exact absurd rfl (hcall x)
    | get | text | size => exact ⟨_, rfl⟩

end Kept

end NameStore

/-- Whatever is asked of a store, by whichever of its handles, all calls are answered as long as no
more different texts are interned than there are indices. The answers are those of the table that is
searched for its texts, and the store keeps for each text the name that it was given first. -/
theorem store_keeps_names {H : Type} (calls : List (H × NameCall))
    (hfew : ("" :: "return" :: NameCall.interned calls).eraseDups.length ≤ NameStore.limit) :
    ∃ start replies s, NameStore.initial = .ok start ∧ start.replyAll calls = .ok (replies, s) ∧
      NameTable.initial.replyAll calls = (replies, ⟨s.texts⟩) ∧ s.Keeps calls replies := by
  obtain ⟨start, hstart, hholds⟩ := NameStore.exists_initial
  have hroom : (NameTable.initial.replyAll calls).2.size ≤ NameStore.limit := by
    rw [NameTable.snd_replyAll, NameTable.size, ← Array.length_toList,
      NameTable.distinct_initial.texts_internAll]
    exact hfew
  obtain ⟨s, hs, hholds'⟩ := hholds.replyAll hroom
  refine ⟨start, _, s, hstart, hs, ?_, hholds'.keeps⟩
  rw [hholds'.texts]

/-- Two handles: a new text, the keyword, a text that is only asked for, and the new text again. -/
theorem store_keeps_names_two_handles :
    let calls : List (Bool × NameCall) := [(false, .intern "x"), (true, .intern "return"),
      (false, .get "y"), (true, .intern "x"), (true, .text ⟨7⟩), (false, .size)]
    ("" :: "return" :: NameCall.interned calls).eraseDups.length ≤ NameStore.limit ∧
      ∃ start s, NameStore.initial = .ok start ∧
        start.replyAll calls = .ok ([.named ⟨2⟩, .named ⟨1⟩, .found none, .named ⟨2⟩, .text "",
          .size 3], s) ∧ s.texts = #["", "return", "x"] ∧ s.indices["x"]? = some 2 := by
  intro calls
  have hfew : ("" :: "return" :: NameCall.interned calls).eraseDups.length ≤ NameStore.limit := by
    have hlength : ("" :: "return" :: NameCall.interned calls).eraseDups.length = 3 := by cbv
    rw [hlength]
    decide
  obtain ⟨start, replies, s, hstart, hs, htable, hkeeps⟩ := store_keeps_names calls hfew
  have hanswers : NameTable.initial.replyAll calls = ([.named ⟨2⟩, .named ⟨1⟩, .found none,
      .named ⟨2⟩, .text "", .size 3], ⟨#["", "return", "x"]⟩) := by cbv
  rw [hanswers] at htable
  obtain ⟨rfl, htexts⟩ := Prod.mk.inj htable
  have htexts : s.texts = #["", "return", "x"] := (NameTable.mk.inj htexts).symm
  refine ⟨hfew, start, s, hstart, hs, htexts, (hkeeps.inverse "x" 2).2 ?_⟩
  rw [htexts]
  rfl

end Reckoner

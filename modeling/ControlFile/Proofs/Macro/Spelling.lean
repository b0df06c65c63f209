import ControlFile.Proofs.Item.Written
import ControlFile.Proofs.Macro.Ordinary
import ControlFile.Vocabulary.Standard

/-!
# Names that are spelled

A name in a document has been given out as a unique name, or it is *spelled*: it is written in one of the
texts, or it is a word that is made of an argument.  The spelled names are the least set that has the
written ones in it and is closed under making words (`Spelling`), whatever unique names are in the
arguments.

Nothing keeps a spelled name from being a unique name: a string may be `"_unique_1"`, and the words of the
argument `#m_unique 2`, without the blank between them, are `_unique_12`.  A row of words can come to
start with a unique name whenever one of its words is a parameter; so arguments of macros that are rows of
words are left out altogether.  If no text has such a string or such an argument of a macro in it, no
spelled name is a unique name (`Spelled.ne_uniqueName`).  Other calls may have rows of words as arguments:
what macros there may be is said by a list of names, which the heads of all macros are held to.
-/

namespace ControlFile

open Text

/-- The name may be that of a macro or of a parameter, or become one: a unique name is put in the place
of the mark. -/
def IsCallee (callees : List String) (name : String) : Prop := name = uniqueMark ∨ name ∈ callees

instance (callees : List String) : DecidablePred (IsCallee callees) :=
  fun _ => inferInstanceAs (Decidable (_ ∨ _))

/-- Names and texts of strings that are closed under making words, where macros and their parameters have
the names `callees`. -/
structure Spelling (v : Vocabulary) (callees : List String) (texts : String → Prop) where
  name : String → Prop
  text : String → Prop
  written : ∀ source, texts source → ∀ i ∈ (Parsed.ofText v source).items,
    i.Everywhere (Item.Meets ⟨name, text, fun _ => True, fun _ => True, IsCallee callees⟩)
  word : ∀ (k : Nat) (a : Argument) (w : String),
    a.Meets (.given (IsCallee callees) name text k) True → a.isName = false →
      a.toWord? = some w → name w
  first : ∀ (k : Nat) (a : Argument) (l : ItemKind),
    a.Meets (.given (IsCallee callees) name text k) True → a.firstWord? = some l →
      l.Meets (.given (IsCallee callees) name text k)

/-- The name is written in one of the texts, or it is a word that is made of an argument. -/
def Spelled (v : Vocabulary) (callees : List String) (texts : String → Prop) (name : String) : Prop :=
  ∀ s : Spelling v callees texts, s.name name

/-- All macros of the text and their parameters have names among `callees`; no string that may be passed
to a macro is mistaken for a unique name, and no argument of a macro is a row of words. -/
def IsUnmistakable (v : Vocabulary) (callees : List String) (source : String) : Prop :=
  ∀ i ∈ (Parsed.ofText v source).items, i.Everywhere (Item.Meets ⟨fun _ => True,
    fun t => IsOrdinary t.toList, fun e => e.isWordRow = false, fun _ => True, IsCallee callees⟩)

instance (v : Vocabulary) (callees : List String) (source : String) :
    Decidable (IsUnmistakable v callees source) :=
  inferInstanceAs (Decidable (∀ i ∈ _, _))

/-- A text without any macro, with a row of words as the argument of a function. -/
example : IsUnmistakable .standard [] "prm x 1 = Cos(x y);" := by decide +kernel

theorem IsGiven.mono {k n : Nat} (h : k ≤ n) {name : String} (hname : IsGiven k name) : IsGiven n name :=
  hname.imp fun _ hi => ⟨Nat.lt_of_lt_of_le hi.1 h, hi.2⟩

/-- The unique names that are given out may be in it, besides the spelled ones. -/
theorem Spelling.numbered {v : Vocabulary} {callees : List String} {texts : String → Prop}
    (s : Spelling v callees texts) : Demands.Numbered (.given (IsCallee callees) s.name s.text) where
  closed k := by
    refine ⟨fun h => h.isWordRow, fun _ _ => trivial, fun _ _ _ => trivial, fun a w ha hw => ?_,
      s.first k, .inl rfl⟩
    cases hname : a.isName with
    | false => exact .inr (s.word k a w ha hname hw)
    | true =>
      cases a with
      | hole => cases hname
      | equation e => cases hname
      | expr e =>
        cases e with
        | ident n =>
          cases hw
          exact ha.2
        | _ => cases hname
      | parameter p =>
        obtain ⟨mark, n, value⟩ := p
        cases n with
        | none => cases hname
        | some n =>
          cases hw
          exact ha.1 w rfl
  unique k := .inl ⟨k, Nat.lt_succ_self k, rfl⟩
  mono k n h := ⟨fun _ hname _ => hname.imp (IsGiven.mono h) id, fun _ ht _ => ht, fun _ he _ => he,
    fun _ _ _ => trivial, fun _ => (and_self_iff).symm⟩

/-! ### Spelled names are no unique names -/

theorem isEdge_of_isAlpha {c : Char} (h : c.isAlpha = true) : isEdge c = false := by
  rw [isEdge, not_isBlank_of_isAlpha h, Bool.false_or, beq_eq_false_iff_ne]
  rintro rfl
  cases h

/-- All names of a text are ordinary: a word starts with a letter. -/
theorem Parsed.items_ordinary (v : Vocabulary) (source : String) :
    ∀ i ∈ (ofText v source).items,
      i.Everywhere (Item.Meets
        ⟨fun n => IsOrdinary n.toList, fun _ => True, fun _ => True, fun _ => True, fun _ => True⟩) := by
  have hmark : IsOrdinary uniqueMark.toList := by decide +kernel
  refine items_written v source (fun t ht hk => ?_) (fun _ _ _ => trivial) hmark (fun _ => trivial)
    (fun _ => trivial) fun _ _ _ _ => trivial
  obtain ⟨hmem, hsignificant⟩ := List.mem_filter.1 ht
  have hlexes := lexesAs_of_mem_scan hmem hsignificant
  rcases hk with hk | hk
  · obtain ⟨c, cs, htext, hfirst⟩ := hlexes
    have halpha : c.isAlpha = true := isAlpha_of_first (by rw [hfirst, hk])
    have hfirst : firstVisible? t.text.toList = some c := by
      rw [htext]
      simp [firstVisible?, isEdge_of_isAlpha halpha]
    refine .inl ?_
    rw [hfirst]
    rintro ⟨⟩
    exact absurd halpha (by decide)
  · rw [hk] at hlexes
    rw [hlexes.eq_unique]
    exact hmark

section Ordinary

variable {v : Vocabulary} {callees : List String} {texts : String → Prop}
variable (h : ∀ source, texts source → IsUnmistakable v callees source)
include h

/-- The names and texts of strings in texts are ordinary, if nothing is mistaken for a unique name. -/
theorem Parsed.items_unmistakable {source : String} (hsource : texts source) {i : Item}
    (hi : i ∈ (ofText v source).items) : i.Everywhere (Item.Meets ⟨fun n => IsOrdinary n.toList,
      fun t => IsOrdinary t.toList, fun _ => True, fun _ => True, IsCallee callees⟩) :=
  (items_ordinary v source i hi).meets_entails (h source hsource i hi)
    ⟨fun _ hn _ => hn, fun _ _ ht => ht, fun _ _ _ => trivial, fun _ _ _ => trivial,
      fun _ => Iff.of_eq (true_and _).symm⟩

/-- The ordinary names and texts, for texts in which nothing is mistaken for a unique name. -/
def Spelling.ordinary : Spelling v callees texts where
  name n := IsOrdinary n.toList
  text t := IsOrdinary t.toList
  written _ hsource _ hi := Parsed.items_unmistakable h hsource hi
  word _ _ _ ha hname hw := Argument.isOrdinary_toWord? ha hname hw
  first _ _ _ ha hl := Argument.meets_firstWord? ha hl

/-- **No spelled name is a unique name.** -/
theorem Spelled.ne_uniqueName {name : String} (hname : Spelled v callees texts name) (n : Nat) :
    name ≠ uniqueName n := by
  rintro rfl
  exact not_isOrdinary_uniqueName n (hname (.ordinary h))

end Ordinary

end ControlFile

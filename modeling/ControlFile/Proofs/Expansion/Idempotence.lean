import ControlFile.Proofs.Expansion.Reexpansion
import ControlFile.Session

/-!
# Expansion is idempotent

What an expansion leaves has nothing in it that could be expanded, and expanding it again gives the
same items and the same tables.

The unique mark is the exception: `#prm x = m();` stays as it is and calls `m` again, and the copy
of the body that is made then has another unique name in it.
-/

namespace ControlFile

open Expander (rootExpansion documentOf ofParsed_eq outcome)

/-- The paths that are asked for when a text is expanded, the latest first. -/
def Session.asked (s : Session) (text : String) : List String :=
  (outcome (rootExpansion s.config (Parsed.ofText s.config.vocabulary text)
    ⟨.empty, [], [], []⟩)).2.asked

namespace Expansion

variable {config : Config}

/-- The items of an expansion that finds nothing wrong are settled. -/
theorem allSettle_rootExpansion (hwatch : config.watch = .never) {text : String}
    (htext : LacksUniqueMark text) {items : List Item} {r : Run}
    (hrun : rootExpansion config (Parsed.ofText config.vocabulary text) ⟨.empty, [], [], []⟩ =
      .ok items r) (hquiet : r.Quiet config) :
    ∃ t, AllSettle config items .empty t ∧ r.tables.Agree t := by
  have hrepeats := repeats_itemAt hwatch config.options.maxDepth (Nat.le_refl _) _ (Nat.le_refl _)
    .root .root
  have hroot : Repeats config .empty (rootExpansion config (Parsed.ofText config.vocabulary text))
      (rootExpansion config (Parsed.ofText config.vocabulary text)) (Emits config .empty) :=
    .reportParsed_bind
      (yields_independently (fun _ _ => trivial) fun i _ => grows_itemAt config _ .root i)
      (repeats_independently .root .root (grows_itemAt config _ .root) hrepeats
        (Parsed.items_unmarked htext) MacroTable.unmarked_empty)
  obtain ⟨_, t, hagree, -, hemits⟩ := hroot ⟨.empty, [], [], []⟩ ⟨.empty, [], [], []⟩ items r
    (.refl _) (.refl _) hrun hquiet
  exact ⟨t, hemits.settle, hagree⟩

/-- Settled items are expanded to themselves as the items of a text. -/
theorem AllSettle.rootExpansion_eq (hwatch : config.watch = .never) {items : List Item} {t : Tables}
    (h : AllSettle config items .empty t) :
    Gives (rootExpansion config ⟨items, [], []⟩) ⟨.empty, [], [], []⟩ items t :=
  .bind ⟨_, rfl, .refl _, rfl⟩ fun _ hr => h.independently_eq hwatch hr

end Expansion

/-- **Expansion is idempotent.**  Let a session without anyone to cancel it expand a text without
finding anything wrong, and let neither the text nor any that is included have the unique mark.  Then
no item that is left has anything in it that an expansion replaces; and if the items that are left
are expanded again, nothing is found to be wrong, they come out as they are, their places included,
and all tables end as they did. -/
theorem Session.parse_idempotent (s : Session) (text : String) (hwatch : s.watch = none)
    (hok : (s.parse text).isOk = true) (htext : LacksUniqueMark text)
    (hincluded : ∀ path ∈ s.asked text, ∀ included, s.resolver path = some included →
      LacksUniqueMark included) :
    (∀ i ∈ (s.parse text).items, i.IsExpanded) ∧
      (Document.ofParsed s.config ⟨(s.parse text).items, [], []⟩).isOk = true ∧
      (Document.ofParsed s.config ⟨(s.parse text).items, [], []⟩).items = (s.parse text).items ∧
      (Document.ofParsed s.config ⟨(s.parse text).items, [], []⟩).tables.Agree
        (s.parse text).tables := by
  have hnever : s.config.watch = .never := by rw [config, hwatch]; rfl
  have hparse : s.parse text = documentOf (rootExpansion s.config
    (Parsed.ofText s.config.vocabulary text) ⟨.empty, [], [], []⟩) := rfl
  rw [asked] at hincluded
  cases hrun : rootExpansion s.config (Parsed.ofText s.config.vocabulary text)
      ⟨.empty, [], [], []⟩ with
  | error d r =>
    rw [hparse, hrun] at hok
    cases hok
  | ok items r =>
    rw [hrun] at hparse hincluded
    rw [hparse] at hok ⊢
    have hquiet : r.Quiet s.config := ⟨List.isEmpty_iff.1 hok, hincluded⟩
    obtain ⟨t, hsettle, hagree⟩ := Expansion.allSettle_rootExpansion hnever htext hrun hquiet
    obtain ⟨r', hagain, hagree', hproblems⟩ := hsettle.rootExpansion_eq hnever
    rw [ofParsed_eq, documentOf, hagain]
    exact ⟨Item.allExpanded_iff.1 hsettle.isExpanded, List.isEmpty_iff.2 hproblems, rfl,
      hagree'.trans hagree.symm⟩

/-- A session with one file, in which a macro is declared and a symbol is defined. -/
def Session.withDeclarations : Session :=
  Session.standard.withResolver (.ofFiles [("f", "macro m(a) \x7b = a; \x7d #define X")])

/-- A text that includes the file, calls the macro and asks for the symbol. -/
theorem Session.parse_idempotent_include :
    let s := Session.withDeclarations
    let text := "#include \"f\" m(b) #ifdef X y #endif"
    s.watch = none ∧ (s.parse text).isOk = true ∧ LacksUniqueMark text ∧ s.asked text = ["f"] ∧
      (s.parse text).items.length = 4 ∧
      (∀ i ∈ (s.parse text).items, i.IsExpanded) ∧
      (Document.ofParsed s.config ⟨(s.parse text).items, [], []⟩).isOk = true ∧
      (Document.ofParsed s.config ⟨(s.parse text).items, [], []⟩).items = (s.parse text).items ∧
      (Document.ofParsed s.config ⟨(s.parse text).items, [], []⟩).tables.Agree
        (s.parse text).tables := by
  intro s text
  have hok : (s.parse text).isOk = true := by decide +kernel
  have htext : LacksUniqueMark text := by
    unfold LacksUniqueMark
    decide +kernel
  have hfile : LacksUniqueMark "macro m(a) \x7b = a; \x7d #define X" := by
    unfold LacksUniqueMark
    decide +kernel
  have hasked : s.asked text = ["f"] := by decide +kernel
  have hincluded : ∀ path ∈ s.asked text, ∀ included, s.resolver path = some included →
      LacksUniqueMark included := by
    rw [hasked]
    intro path hpath included h
    obtain rfl := List.mem_singleton.1 hpath
    cases h
    exact hfile
  exact ⟨rfl, hok, htext, hasked, by decide +kernel,
    Session.parse_idempotent s text rfl hok htext hincluded⟩

end ControlFile

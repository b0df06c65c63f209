import ControlFile.Proofs.Expansion.Parting
import ControlFile.Proofs.Expansion.Passive
import ControlFile.Session

/-!
# What a failed item leaves behind

An item that fails is reported and gives no items, and the items behind it are processed as if it
were not there.  Its changes of the tables are not taken back, though.  A conditional, a site or the body
of a macro that has defined a symbol and then fails leaves the symbol defined; and a declaration whose
value fails leaves its name declared, while a preprocessor variable whose value fails is not set.

`failed_item` says exactly what is left: the tables at one point of the course of the item.  Nothing is
left of an item that calls no macro and has no items in it, apart from the name that it declares; and
nothing of one in which nothing changes the tables.
-/

namespace ControlFile.Expansion

open Expander (belowAt itemAt_eq)

/-- An item that fails gives nothing, and one problem; the items behind it are expanded as if it
were not there. -/
theorem independently_of_error {frame : Frame} {one : Item → Expansion (List Item)}
    {i : Item} {d : Diagnostic} {r r' : Run} (hfail : one i r = .error d r')
    (hd : d.fault ≠ .cancelled) (is : List Item) :
    independently frame one (i :: is) r = independently frame one is (r'.reporting frame d) := by
  rw [independently]
  refine (bind_of_ok (show _ = EStateM.Result.ok [] (r'.reporting frame d) from ?_)).trans ?_
  · simp only [hfail, if_neg hd]
    rfl
  cases hrest : independently frame one is (r'.reporting frame d) with
  | ok items r'' => exact bind_of_ok hrest
  | error e r'' => exact bind_of_error hrest

theorem macros_declaring (t : Tables) (name : Option String) : (declaring t name).macros = t.macros := by
  cases name <;> rfl

/-- **A leaf that fails** and names no macro leaves the tables as they were, with its name declared. -/
theorem FailsAlone.agree {place : Place} {k : ItemKind} {r r' : Run} {d : Diagnostic}
    (h : FailsAlone place k r d r') (hmacros : NoMacros r.tables.macros k.names) :
    r'.tables.Agree (declaring r.tables k.declares) := by
  have hparts : ∀ n ∈ Argument.namesAll k.parts, r.tables.macros.contains n = false :=
    fun n hn => hmacros n (namesAll_parts hn)
  obtain ⟨hdeclares, h⟩ | ⟨-, h | ⟨e, b, hk, hdeclares, h⟩⟩ := h
  · rw [hdeclares, h]
    exact .refl _
  · have hexpand : LeavesTables r.tables.macros (expandArguments place k.parts) :=
      leavesTables_expandArguments k.parts hparts
    have hleaves := hexpand { r with tables := declaring r.tables k.declares } (macros_declaring _ _)
    rw [h] at hleaves
    rw [show r'.tables = declaring r.tables k.declares from hleaves]
    exact .refl _
  · rw [hk, Argument.namesAll] at hparts
    have hexpand : LeavesTables r.tables.macros (expandArgument place (.expr e)) :=
      leavesTables_expandArgument (.expr e) fun n hn => hparts n (List.mem_append_left _ hn)
    have hleaves := hexpand r rfl
    rw [h] at hleaves
    rw [hdeclares, show r'.tables = r.tables from hleaves]
    exact .refl _

/-- **What a failed item leaves.** Let an item fail, and not because the run is cancelled.

* It adds nothing to the items and one to the problems, for all items behind it.
* It leaves the tables at one point of its course: what has been expanded by then keeps its changes, a
  declaration has declared its name, and nothing else is changed.
* If no name in it is that of a macro, and there are no items in it, or none that changes the tables, then
  it leaves the tables before it, with its name declared if it is a declaration. -/
theorem failed_item (config : Config) (levels : Nat) (frame : Frame) (i : Item) (r₀ : Run)
    (d : Diagnostic) (r : Run) (hfail : itemAt config levels frame i r₀ = .error d r)
    (hd : d.fault ≠ .cancelled) :
    (∀ is, independently frame (itemAt config levels frame) (i :: is) r₀ =
      independently frame (itemAt config levels frame) is (r.reporting frame d)) ∧
    (∃ q, Course config ⟨levels, frame, i.range, .items [i], r₀⟩ q ∧
      r.tables.Agree q.run.tables) ∧
    (i.kind.IsLeaf ∨ i.Everywhere Passive → NoMacros r₀.tables.macros i.names →
      r.tables.Agree (declaring r₀.tables i.kind.declares)) := by
  refine ⟨independently_of_error hfail hd, ?_, fun hi hmacros => ?_⟩
  · refine reaches_of_fails ⟨levels, frame, i.range, .items [i], r₀⟩ d ?_ hd
    change expandItems _ _ _ [i] r₀ = _
    rw [expandItems, ← itemAt_eq]
    exact bind_of_error hfail
  obtain ⟨kind, range⟩ := i
  rw [itemAt_eq] at hfail
  rcases hi with hleaf | hpassive
  · rw [expandItem] at hfail
    exact (error_expandKind hleaf (error_of_checkCancelled hfail hd) hd).agree hmacros
  · have hitem : LeavesTables r₀.tables.macros
        (expandItem config (belowAt config levels) frame ⟨kind, range⟩) :=
      leavesTables_expandItem _ hpassive hmacros
    have hleaves := hitem r₀ rfl
    rw [hfail] at hleaves
    rw [(Item.everywhere_iff.1 hpassive).1.declares, show r.tables = r₀.tables from hleaves]
    exact .refl _

/-- `#ifndef B #define A existing_prm z = 1; #endif`: it defines `A`, and then fails since `z` is
not declared. -/
def definesThenFails : Item :=
  ⟨.conditional .document
    (.branch (.defined "B" true)
      [⟨.directive (.define "A"), ⟨10, 19⟩⟩,
        ⟨.existing ⟨.plain, "z", ⟨.set, .literal (.integer 1), none⟩⟩, ⟨20, 39⟩⟩]
      .done), ⟨0, 46⟩⟩

/-- An item that fails can leave a symbol defined. -/
theorem failed_item_leaves_symbol :
    ∃ r, itemAt Session.standard.config 256 .root definesThenFails ⟨.empty, [], [], []⟩ =
        .error ⟨.unresolved "z", ⟨20, 39⟩⟩ r ∧
      ¬r.tables.Agree .empty := by
  refine ⟨_, rfl, ?_⟩
  rintro ⟨-, hsymbols, -⟩
  exact absurd hsymbols (by decide)

/-- `prm x = f();`: it declares `x`, and then fails since `f` has been deleted. -/
def declaresThenFails : Item :=
  ⟨.declaration .prm ⟨.plain, some "x", .equation ⟨.set, .call "f" [] ⟨8, 11⟩, none⟩⟩, ⟨0, 12⟩⟩

/-- The symbol is left that was defined before the failure, and the name that was declared before its
value was expanded. -/
theorem failed_item_defines_and_declares :
    (∃ r, itemAt Session.standard.config 256 .root definesThenFails ⟨.empty, [], [], []⟩ =
        .error ⟨.unresolved "z", ⟨20, 39⟩⟩ r ∧ r.tables.symbols = ["A"] ∧
      ∃ q, Course Session.standard.config
          ⟨256, .root, ⟨0, 46⟩, .items [definesThenFails], ⟨.empty, [], [], []⟩⟩ q ∧
        r.tables.Agree q.run.tables) ∧
    ∃ r, itemAt Session.standard.config 256 .root declaresThenFails
        ⟨⟨⟨[], ["f"]⟩, [], [], [], 0⟩, [], [], []⟩ = .error ⟨.unresolved "f", ⟨0, 12⟩⟩ r ∧
      r.tables.Agree ⟨⟨[], ["f"]⟩, [], [], ["x"], 0⟩ := by
  obtain ⟨-, hcourse, -⟩ := failed_item Session.standard.config 256 .root definesThenFails
    ⟨.empty, [], [], []⟩ ⟨.unresolved "z", ⟨20, 39⟩⟩ _ rfl (by decide)
  obtain ⟨-, -, hleaf⟩ := failed_item Session.standard.config 256 .root declaresThenFails
    ⟨⟨⟨[], ["f"]⟩, [], [], [], 0⟩, [], [], []⟩ ⟨.unresolved "f", ⟨0, 12⟩⟩ _ rfl (by decide)
  exact ⟨⟨_, rfl, by decide, hcourse⟩, _, rfl, hleaf (.inl trivial) (by decide)⟩

end ControlFile.Expansion

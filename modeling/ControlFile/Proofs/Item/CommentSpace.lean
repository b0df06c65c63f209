import ControlFile.Proofs.Item.Displacement
import ControlFile.Proofs.Token.CommentSpace
import ControlFile.Vocabulary.Standard

/-!
# Comments are only space

A blank may stand in the place of a comment: the tokens that are read are the same, at other places
(`TokenStream.ofText_blanked`), so the items are the same but for their places, and the same faults are
found (`Parsed.itemsOf_displaced`).  Places keep their order when a stretch of the text gets longer, so
the diagnostics are in the same order as well (`Diagnostic.sortByStart_displaced`).
-/

namespace ControlFile

/-- Diagnostics whose places keep their order are sorted the same. -/
theorem Diagnostic.sortByStart_displaced {f : Nat → Nat} (hf : ∀ x y, f x ≤ f y ↔ x ≤ y)
    (ds : List Diagnostic) :
    sortByStart (ds.map (·.displaced f)) = (sortByStart ds).map (·.displaced f) := by
  refine (List.map_mergeSort fun a _ b _ => ?_).symm
  rw [decide_eq_decide]
  exact (hf _ _).symm

namespace Parsed

/-- **Comments are only space.**  A single blank in the place of a comment, a line comment or a closed
block comment, gives the same items but for their places, and the same faults in the same order. -/
theorem comment_is_space (v : Vocabulary) {text : String} {t : Token} {kind : CommentKind}
    (ht : t ∈ Token.ofText text) (hkind : t.kind = .comment kind) {left right : List Char}
    (htext : text.toList = left ++ t.text.toList ++ right) (hleft : byteLength left = t.range.start) :
    let blanked := String.ofList (left ++ ' ' :: right)
    Item.bareAll (ofText v text).items = Item.bareAll (ofText v blanked).items ∧
      (ofText v text).diagnostics.map (·.fault) = (ofText v blanked).diagnostics.map (·.fault) := by
  intro blanked
  obtain ⟨htokens, hdiagnostics, hend⟩ := TokenStream.ofText_blanked ht hkind htext hleft
  have hstart : Lexer.widen t.range.start (byteLength t.text.toList) 0 = 0 :=
    Lexer.widen_of_le (Nat.zero_le t.range.start)
  obtain ⟨hitems, hreported⟩ := itemsOf_displaced v hstart
    (TokenStream.ofText blanked).tokens (byteLength blanked.toList)
  rw [← htokens, ← hend] at hitems hreported
  refine ⟨hitems, ?_⟩
  have hsorted : (ofText v text).diagnostics = (ofText v blanked).diagnostics.map
      (·.displaced (Lexer.widen t.range.start (byteLength t.text.toList))) := by
    simp only [ofText]
    rw [hdiagnostics, hreported, ← List.map_append,
      Diagnostic.sortByStart_displaced fun _ _ => Lexer.widen_le_iff]
  rw [hsorted, List.map_map]
  rfl

/-- A comment between a name and a parenthesis, which are no call with it or with a blank, and faults
before and behind it. -/
theorem comment_is_space_call :
    let text := "$ x/*é*/(y) ; prm"
    let t : Token := ⟨.comment .block, "/*é*/", ⟨3, 9⟩, false⟩
    let blanked := String.ofList ("$ x".toList ++ ' ' :: "(y) ; prm".toList)
    (t ∈ Token.ofText text ∧ text.toList = "$ x".toList ++ t.text.toList ++ "(y) ; prm".toList ∧
      byteLength "$ x".toList = t.range.start) ∧
    (ofText .standard blanked).diagnostics.map (·.fault) =
      [.invalidCharacter "$", .unexpected (some ";") .topLevel, .expected (.name .variable) none] ∧
    Item.bareAll (ofText .standard text).items = Item.bareAll (ofText .standard blanked).items ∧
    (ofText .standard text).diagnostics.map (·.fault) =
      (ofText .standard blanked).diagnostics.map (·.fault) := by
  intro text t blanked
  have ht : t ∈ Token.ofText text := by decide +kernel
  have htext : text.toList = "$ x".toList ++ t.text.toList ++ "(y) ; prm".toList := by decide +kernel
  have hleft : byteLength "$ x".toList = t.range.start := by decide +kernel
  have hfound : (TokenStream.ofText blanked).diagnostics ++ (itemsOf .standard
      (TokenStream.ofText blanked).tokens (byteLength blanked.toList)).2 =
      [⟨.invalidCharacter "$", ⟨0, 1⟩⟩, ⟨.unexpected (some ";") .topLevel, ⟨8, 9⟩⟩,
        ⟨.expected (.name .variable) none, ⟨13, 13⟩⟩] := by decide +kernel
  have hsorted : (ofText .standard blanked).diagnostics = _ :=
    (congrArg Diagnostic.sortByStart hfound).trans (List.mergeSort_of_pairwise (by decide))
  exact ⟨⟨ht, htext, hleft⟩, by rw [hsorted]; rfl, comment_is_space .standard ht rfl htext hleft⟩

end Parsed

end ControlFile

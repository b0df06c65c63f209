import ControlFile.Proofs.Item.Rendering

/-!
# An equation alone

The writing of an equation that is built as the grammar groups it is a text without errors, and the
equation is the one item of the text (`Parsed.ofText_equation`).  It need not have been read before.
-/

namespace ControlFile

open Lexer Lexeme

/-- Where an equation is written, it is read as an item. -/
theorem ItemParser.runs_equation {v : Vocabulary} {levels : Nat} {e : Equation} (hg : e.Grammatical v)
    (hn : e.nesting < levels) (scope : Scope) {c : Cursor} {s : Bool} {rs : List Lexeme}
    (hcolon : e.uncertainty = none → Lexeme.kind? rs ≠ some (.mark .colon))
    (hc : c.lexemes = e.row s ++ rs) :
    ∃ f range c', Runs (item v levels scope) c (some ⟨.equation f, range⟩) c' ∧
      f.bare = e.foldSigns.bare ∧ c'.lexemes = rs := by
  cases levels with
  | zero => exact absurd hn (Nat.not_lt_zero _)
  | succ levels =>
    obtain ⟨f, c', hrun, hf, hc'⟩ := Parser.equation_expression_row hg hn hcolon hc
    have hassign : Lexeme.kind? c.lexemes = some (.assign e.op) := by
      rw [hc]
      cases e
      rfl
    obtain ⟨t, ht, hkind⟩ := exists_token hassign
    have hitem : Runs (itemKind v (levels + 1) (some (item v levels)) scope) c
        (some (.equation f)) c' := by
      rw [Runs, itemKind_some ht, if_neg (by rw [hkind]; simp)]
      simp only [leaf, hkind]
      exact (runs_lift.2 hrun).bind rfl
    obtain ⟨range, hlocated⟩ := runs_located hitem
    exact ⟨f, range, c', hlocated, hf, hc'⟩

/-- **An equation that is written alone is read again.** -/
theorem Parsed.ofText_equation {v : Vocabulary} {e : Equation} (hg : e.Grammatical v)
    (hn : e.nesting < maxNesting) : (ofText v e.render).isOk = true ∧
      ∃ f range, (ofText v e.render).items = [⟨.equation f, range⟩] ∧ f.bare = e.foldSigns.bare := by
  have hprints := Equation.prints hg
  have hlexemes : lexemes true e.render.toList = e.row true := by
    have hspells := hprints.spells true [] closed_nil
    rwa [List.append_nil, lexemes_nil, List.append_nil] at hspells
  have hread := hprints.read true
  have hstart : (start e.render).lexemes = e.row true ++ [] := by
    rw [List.append_nil]
    exact (Cursor.lexemes_tokens (valid_of_isRead hlexemes hread)).trans (visible_of_isRead hlexemes hread)
  obtain ⟨f, range, c', hitem, hf, hend⟩ :=
    ItemParser.runs_equation hg hn ⟨.topLevel, false⟩ (fun _ => by simp [Lexeme.kind?]) hstart
  -- The one step of the loop, and its end.
  have hloop := ItemParser.loop_items ItemParser.telling_never
    (ItemParser.retains_item v maxNesting ⟨.topLevel, false⟩)
  have hpasses : (start e.render).Passes c' := by
    obtain ⟨l, ls, hrow, -⟩ := hprints.head true
    refine ⟨?_, ?_⟩
    · rw [hend]
      exact List.nil_suffix
    · rw [hend, hstart, hrow]
      simp
  have hnot : ¬ItemParser.Stopped (fun _ => false) (start e.render) := fun hstopped => by
    obtain ⟨l, ls, hrow, -⟩ := hprints.head true
    exact Bool.noConfusion (hstopped l.kind (by rw [Cursor.kind?_eq, hstart, hrow]; rfl))
  have hall : ItemParser.RunsAll (document v) (start e.render) [⟨.equation f, range⟩] c' := by
    have hlength : (start e.render).rest.length = (start e.render).rest.length - 1 + 1 := by
      have := hpasses.shorter
      rw [Cursor.length_lexemes, Cursor.length_lexemes] at this
      omega
    change ItemParser.items _ _ (start e.render).rest.length _ = _
    rw [hlength, hloop.step hnot hitem hpasses, hloop.stop (hloop.nil hend)]
  obtain ⟨hok, hitems⟩ := ofText_of_runsAll (TokenStream.diagnostics_of_isRead hlexemes hread) hall
  exact ⟨hok, f, range, hitems, hf⟩

end ControlFile

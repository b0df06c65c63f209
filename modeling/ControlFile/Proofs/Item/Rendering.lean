import ControlFile.Proofs.Item.EchoItem
import ControlFile.Proofs.Item.Text

/-!
# Written items are read again

The items of an accepted text are written as a text that is accepted, and the same items are read from it
(`Parsed.ofText_renderItems`), up to what the writing does not show: the places of the items, and the
space between a minus and the number behind it.  In the text a minus with space before the number is an
operation, and written the two touch, so that the minus is read as part of the number.
-/

namespace ControlFile

open Lexer Lexeme

/-! ### Written texts -/

/-- The items behind the first one, each on a line of its own. -/
def linesBehind (is : List Item) : String := String.join (is.map ("\n" ++ ·.render))

theorem renderItems_cons (i : Item) (is : List Item) :
    renderItems (i :: is) = i.render ++ linesBehind is := by
  induction is generalizing i with
  | nil => simp [renderItems, linesBehind]
  | cons j is ih =>
    have hrest : renderItems (j :: is) = j.render ++ linesBehind is := ih j
    unfold renderItems at hrest
    rw [renderItems, List.map_cons, List.map_cons, String.intercalate_cons_cons, ← List.map_cons, hrest]
    simp only [linesBehind, List.map_cons, String.join_cons, String.append_assoc]

theorem ItemParser.PrintsAll.trails_lines {is : List Item} {ls : List Lexeme}
    (h : PrintsAll is ls) : Trails (linesBehind is) ls := by
  induction is generalizing ls with
  | nil =>
    rw [show ls = [] from h]
    exact Trails.nil
  | cons i is ih =>
    obtain ⟨row, ls', hprints, his, rfl⟩ := h
    have hfirst : Trails ("\n" ++ i.render) (row true) := hprints.blank (c := '\n') rfl
    have htext : linesBehind (i :: is) = "\n" ++ i.render ++ linesBehind is := by
      simp only [linesBehind, List.map_cons, String.join_cons]
    exact htext ▸ hfirst.append (ih his)

/-- The items of a document are cut into the lexemes of their rows. -/
theorem ItemParser.PrintsAll.lexemes {is : List Item} {ls : List Lexeme} (h : PrintsAll is ls) :
    Lexer.lexemes true (renderItems is).toList = ls ∧ ∀ l ∈ ls, l.IsRead := by
  cases is with
  | nil =>
    rw [show ls = [] from h]
    exact ⟨by simp [renderItems, lexemes_nil], by simp⟩
  | cons i is =>
    obtain ⟨row, ls', hprints, his, rfl⟩ := h
    have hall := hprints.trails his.trails_lines
    rw [renderItems_cons]
    refine ⟨?_, hall.read true⟩
    have hspells := hall.spells true [] closed_nil
    rw [List.append_nil, lexemes_nil, List.append_nil] at hspells
    exact hspells

section Read

variable {text : String} {ls : List Lexeme}

theorem valid_of_isRead (h : lexemes true text.toList = ls) (hread : ∀ l ∈ ls, l.IsRead) :
    Valid text.toList := fun l hl => (hread l (h ▸ hl)).2

theorem visible_of_isRead (h : lexemes true text.toList = ls) (hread : ∀ l ∈ ls, l.IsRead) :
    visible true text.toList = ls := by
  rw [visible, h, List.filter_eq_self]
  exact fun l hl => by rw [(hread l hl).1]; rfl

/-- Where all lexemes are read there is nothing to report about the tokens. -/
theorem TokenStream.diagnostics_of_isRead (h : lexemes true text.toList = ls)
    (hread : ∀ l ∈ ls, l.IsRead) : (TokenStream.ofText text).diagnostics = [] := by
  refine List.filterMap_eq_nil_iff.2 fun t ht => ?_
  by_cases hblank : t.kind = .blank
  · simp [Token.diagnostic?, Token.fault?, hblank]
  · have hmem : t.lexeme ∈ lexemes true text.toList :=
      List.mem_map_of_mem (List.mem_filter.2 ⟨ht, by simpa using hblank⟩)
    obtain ⟨htrivia, hinvalid⟩ := hread t.lexeme (h ▸ hmem)
    rw [Token.kind_lexeme] at htrivia hinvalid
    cases hkind : t.kind <;> simp_all [Token.diagnostic?, Token.fault?, TokenKind.isTrivia]

end Read

namespace Parsed

variable {v : Vocabulary} {text : String}

/-- An accepted text is read without a report, up to its end. -/
theorem runsAll_document (h : (ofText v text).isOk = true) :
    ∃ c', ItemParser.RunsAll (document v) (start text) (ofText v text).items c' ∧ c'.lexemes = [] := by
  obtain ⟨ts, ds, -, -, hend⟩ := ItemParser.collects_allItems
    (ItemParser.scans_item v maxNesting ⟨.topLevel, false⟩) (fun _ => false)
    ⟨start text, []⟩ (Cursor.inText_start text)
  have hreported : (document v ⟨start text, []⟩).2.reported = [] := reported_of_isOk h
  refine ⟨(document v ⟨start text, []⟩).2.cursor, ?_, ?_⟩
  · exact Prod.ext rfl (Reading.eq_of_reported hreported)
  · cases hrow : (document v ⟨start text, []⟩).2.cursor.lexemes with
    | nil => rfl
    | cons l ls => exact absurd (hend l.kind (by rw [Cursor.kind?_eq]; exact hrow ▸ rfl)) (by simp)

theorem ofText_of_runsAll {items : List Item} {c' : Cursor}
    (hstream : (TokenStream.ofText text).diagnostics = [])
    (h : ItemParser.RunsAll (document v) (start text) items c') :
    (ofText v text).isOk = true ∧ (ofText v text).items = items := by
  have hitems : itemsOf v (TokenStream.ofText text).tokens (byteLength text.toList) = (items, []) :=
    congrArg (fun run => (run.1, run.2.reported)) h
  have htext : ofText v text = ⟨items, [], (TokenStream.ofText text).comments⟩ := by
    unfold ofText
    simp [hitems, hstream, Diagnostic.sortByStart]
  rw [htext]
  exact ⟨rfl, rfl⟩

/-- **The items of an accepted text are written and read again.**  Their places are not kept, and a
minus that stands before a number with space between is read as part of the number. -/
theorem ofText_renderItems (h : (ofText v text).isOk = true)
    (hsep : Item.AllSeparate (ofText v text).items) :
    (ofText v (renderItems (ofText v text).items)).isOk = true ∧
      Item.bareAll (ofText v (renderItems (ofText v text).items)).items =
        Item.bareAll (Item.foldSignsAll (ofText v text).items) := by
  obtain ⟨c', hrun, hend⟩ := runsAll_document h
  have hvalid : Valid text.toList := TokenStream.valid (nil_of_isOk h).1
  have hechoes : ItemParser.EchoesAll (document v) :=
    ItemParser.echoesAll_allItems ItemParser.telling_never (ItemParser.retains_item v _ _)
      fun c hc => ItemParser.echoes_item v _ _ hc
  obtain ⟨ls, hall, hagain⟩ := hechoes _ (Cursor.fromText_start hvalid _ _) _ c' hrun
  obtain ⟨hlexemes, hread⟩ := hall.prints.lexemes
  have hd : (start (renderItems (ofText v text).items)).lexemes = ls ++ [] := by
    rw [List.append_nil]
    exact (Cursor.lexemes_tokens (valid_of_isRead hlexemes hread)).trans (visible_of_isRead hlexemes hread)
  have hfollows : Follows c'.lexemes [] := by
    rw [hend]
    exact ⟨.of_eq rfl, isSpaced_nil⟩
  obtain ⟨js, d', hrun', hjs, -⟩ := hagain hsep _ [] hfollows (fun _ => rfl) hd
  obtain ⟨hok, hitems⟩ := ofText_of_runsAll (TokenStream.diagnostics_of_isRead hlexemes hread) hrun'
  exact ⟨hok, by rw [hitems, hjs]⟩

/-- A minus with space behind it, in a branch and in a site that follows an open place. -/
theorem ofText_renderItems_branch :
    (ofText .standard "#if - 1; site s x @ occ a 1 #else x = - 2 ^ 2; #endif").isOk = true ∧
      Item.AllSeparate (ofText .standard "#if - 1; site s x @ occ a 1 #else x = - 2 ^ 2; #endif").items ∧
      renderItems (ofText .standard "#if - 1; site s x @ occ a 1 #else x = - 2 ^ 2; #endif").items =
        "#if -1; site s x @ occ a 1 #else x = -2 ^ 2; #endif" ∧
      Item.bareAll (ofText .standard "#if -1; site s x @ occ a 1 #else x = -2 ^ 2; #endif").items =
        Item.bareAll (Item.foldSignsAll
          (ofText .standard "#if - 1; site s x @ occ a 1 #else x = - 2 ^ 2; #endif").items) := by
  have hok : (ofText .standard "#if - 1; site s x @ occ a 1 #else x = - 2 ^ 2; #endif").isOk = true := by
    decide +kernel
  have hsep : Item.AllSeparate
      (ofText .standard "#if - 1; site s x @ occ a 1 #else x = - 2 ^ 2; #endif").items := by
    decide +kernel
  have hrender : renderItems (ofText .standard
      "#if - 1; site s x @ occ a 1 #else x = - 2 ^ 2; #endif").items =
        "#if -1; site s x @ occ a 1 #else x = -2 ^ 2; #endif" := by
    decide +kernel
  exact ⟨hok, hsep, hrender, hrender ▸ (ofText_renderItems hok hsep).2⟩

/-- The body of the first equation, if that is what the items start with, is a number. -/
def startsWithNumber : List Item → Bool
  | ⟨.equation ⟨_, .literal _, _⟩, _⟩ :: _ => true
  | _ => false

/-- The sign and the number are two in the text `= - 1;`, and one where it has been written. -/
theorem not_same_of_isOk : ¬∀ (v : Vocabulary) (text : String), (ofText v text).isOk = true →
    (ofText v (renderItems (ofText v text).items)).isOk = true ∧
      Item.bareAll (ofText v (renderItems (ofText v text).items)).items =
        Item.bareAll (ofText v text).items := by
  intro h
  have hsame := (h .standard "= - 1;" (by decide +kernel)).2
  have hnumber := congrArg startsWithNumber hsame
  exact absurd hnumber (by decide +kernel)

end Parsed

end ControlFile

import ControlFile.Proofs.Item.Consumption
import ControlFile.Vocabulary.Standard

/-!
# What is read from a text

The facts about the parsers of items, for whole texts.

* `Parsed.items_inside`, `Parsed.diagnostics_inside`: items and diagnostics have their places in the
  text.
* `Parsed.items_unmarked`: where a text has no unique mark, no item has it.
* `Parsed.wellNested_iff`: which accepted texts have well nested conditionals.
* `Parsed.confined_of_isOk`: in an accepted text, what has a meaning in the body of a macro only stands
  in one, but for the unique mark.
-/

namespace ControlFile

namespace Parsed

/-- Where reading a text starts. -/
def start (text : String) : Cursor := ⟨(TokenStream.ofText text).tokens, 0, byteLength text.toList⟩

/-- Reads the items of a document. -/
def document (v : Vocabulary) : StateM Reading (List Item) :=
  ItemParser.allItems (ItemParser.item v maxNesting ⟨.topLevel, false⟩) fun _ => false

variable (v : Vocabulary) (text : String)

/-- All tokens of a text are read, so what holds of all that is consumed holds of its tokens. -/
theorem exists_of_collects {Q : List Token → List Diagnostic → List Item → Reading → Prop}
    (h : ItemParser.Collects (byteLength text.toList) (document v) ⟨start text, []⟩ Q) :
    ∃ r', r'.cursor.rest = [] ∧
      (∀ d ∈ (itemsOf v (TokenStream.ofText text).tokens (byteLength text.toList)).2,
        d.range.Inside (byteLength text.toList)) ∧
      Q (TokenStream.ofText text).tokens
        (itemsOf v (TokenStream.ofText text).tokens (byteLength text.toList)).2
        (ofText v text).items r' := by
  obtain ⟨_, _, _, -, hend⟩ := ItemParser.collects_allItems
    (ItemParser.scans_item v maxNesting ⟨.topLevel, false⟩) (fun _ => false) ⟨start text, []⟩
    (Cursor.inText_start text)
  obtain ⟨ts, ds, hmoves, hq⟩ := h (Cursor.inText_start text)
  rw [← document] at hend
  generalize hrun : document v ⟨start text, []⟩ = run at hmoves hq hend
  have hitems : (ofText v text).items = run.1 := congrArg Prod.fst hrun
  have hreported : (itemsOf v (TokenStream.ofText text).tokens (byteLength text.toList)).2 = ds := by
    have h : (itemsOf v (TokenStream.ofText text).tokens (byteLength text.toList)).2 =
        run.2.reported := congrArg (fun run => run.2.reported) hrun
    rw [h, hmoves.reported]
    exact List.nil_append ds
  have hrest : run.2.cursor.rest = [] := by
    cases hrest : run.2.cursor.rest with
    | nil => rfl
    | cons t ts => exact absurd (hend t.kind (Cursor.kind?_cons hrest)) (by simp)
  have htokens : (TokenStream.ofText text).tokens = ts := by
    have h := hmoves.cursor.rest
    rwa [hrest, List.append_nil] at h
  refine ⟨run.2, hrest, ?_, ?_⟩
  · rw [hreported]
    exact hmoves.inside
  · rw [hreported, htokens, hitems]
    exact hq

/-- What is read from a text. -/
theorem exists_sound : ∃ r', r'.cursor.word? = none ∧
    (∀ d ∈ (itemsOf v (TokenStream.ofText text).tokens (byteLength text.toList)).2,
      d.range.Inside (byteLength text.toList)) ∧
    ItemParser.SoundItems (byteLength text.toList) false (TokenStream.ofText text).tokens
      (itemsOf v (TokenStream.ofText text).tokens (byteLength text.toList)).2
      (ofText v text).items r' := by
  obtain ⟨r', hrest, hinside, hsound, -⟩ := exists_of_collects v text
    (ItemParser.collects_allItems (ItemParser.scans_item v maxNesting ⟨.topLevel, false⟩)
      (fun _ => false) ⟨start text, []⟩)
  refine ⟨r', ?_, hinside, hsound⟩
  rw [Cursor.word?, Cursor.kind?, Cursor.peek?, hrest]
  rfl

/-- **Every item, at any depth, is a stretch of the text.** -/
theorem items_inside : ∀ i ∈ (ofText v text).items,
    i.Everywhere (Item.Inside (byteLength text.toList)) := by
  obtain ⟨r', -, -, hsound⟩ := exists_sound v text
  exact hsound.placed

/-- **Every diagnostic is about a stretch of the text.** -/
theorem diagnostics_inside : ∀ d ∈ (ofText v text).diagnostics,
    d.range.Inside (byteLength text.toList) := by
  intro d hd
  obtain ⟨r', -, hreported, -⟩ := exists_sound v text
  rcases List.mem_append.1 ((Diagnostic.sortByStart_perm _).mem_iff.1 hd) with hd | hd
  · obtain ⟨t, ht, htd⟩ := List.mem_filterMap.1 hd
    obtain ⟨fault, -, rfl⟩ := Option.map_eq_some_iff.1 htd
    exact (Token.inOrder_ofText text).inside t ht
  · exact hreported d hd

variable {v text}

/-- An accepted text has neither faulty tokens nor faulty items. -/
theorem nil_of_isOk (h : (ofText v text).isOk = true) : (TokenStream.ofText text).diagnostics = [] ∧
    (itemsOf v (TokenStream.ofText text).tokens (byteLength text.toList)).2 = [] := by
  have hdiagnostics : (ofText v text).diagnostics = [] := List.isEmpty_iff.1 h
  have happend : ((TokenStream.ofText text).diagnostics ++
      (itemsOf v (TokenStream.ofText text).tokens (byteLength text.toList)).2).Perm [] :=
    hdiagnostics ▸ (Diagnostic.sortByStart_perm _).symm
  exact List.append_eq_nil_iff.1 happend.eq_nil

theorem reported_of_isOk (h : (ofText v text).isOk = true) :
    (itemsOf v (TokenStream.ofText text).tokens (byteLength text.toList)).2 = [] := (nil_of_isOk h).2

/-- **A text without the unique mark has no marked items.** -/
theorem items_unmarked (hnone : ∀ t ∈ Token.ofText text, t.kind ≠ .directive .unique) :
    ∀ i ∈ (ofText v text).items, i.Everywhere Item.Unmarked := by
  obtain ⟨r', -, -, hsound⟩ := exists_sound v text
  exact hsound.unmarked (Token.isUnmarked_of_mem hnone)

/-- **The words of conditionals of an accepted text are conditionals**, none of which leaves a
word. -/
theorem exists_conditionals (h : (ofText v text).isOk = true) :
    ∃ n, Conditionals n (chainWords (Token.ofText text)) none := by
  obtain ⟨r', hend, -, hsound⟩ := exists_sound v text
  obtain ⟨n, left, hn, hleft⟩ := hsound.accepted (reported_of_isOk h)
  have hwords : chainWords (TokenStream.ofText text).tokens = chainWords (Token.ofText text) :=
    chainWords_filter _
  rw [hwords] at hn
  cases left with
  | none => exact ⟨n, hn⟩
  | some w =>
    have h := hleft w rfl
    rw [hend] at h
    cases h

/-- **Accepted conditionals**: each of them has an end of its own, except those which leave the next word
to the conditional around them.  The words of the text are well nested exactly if there are none of
these, and as many are there as ends are missing. -/
theorem wellNested_iff (h : (ofText v text).isOk = true) :
    ∃ n, Conditionals n (chainWords (Token.ofText text)) none ∧
      openings (chainWords (Token.ofText text)) = endings (chainWords (Token.ofText text)) + n ∧
      (WellNested (chainWords (Token.ofText text)) ↔ n = 0) := by
  obtain ⟨n, hn⟩ := exists_conditionals h
  exact ⟨n, hn, hn.endings_add.symm, hn.wellNested_iff_eq_zero⟩

/-- The inner conditional has an else part, and leaves the second else to the outer one. -/
theorem wellNested_iff_else : (ofText .standard "#if 1; #if 2; #else #else #endif").isOk = true ∧
    ∃ n, Conditionals n (chainWords (Token.ofText "#if 1; #if 2; #else #else #endif")) none ∧
      openings (chainWords (Token.ofText "#if 1; #if 2; #else #else #endif")) =
        endings (chainWords (Token.ofText "#if 1; #if 2; #else #else #endif")) + n ∧
      (WellNested (chainWords (Token.ofText "#if 1; #if 2; #else #else #endif")) ↔ n = 0) :=
  have hok : (ofText .standard "#if 1; #if 2; #else #else #endif").isOk = true := by decide +kernel
  ⟨hok, wellNested_iff hok⟩

/-- An accepted text in which one end is missing. -/
theorem not_wellNested_of_isOk :
    ¬∀ (v : Vocabulary) (text : String), (ofText v text).isOk = true →
      WellNested (chainWords (Token.ofText text)) := by
  intro h
  have hnested := h .standard "#if 1; #if 2; #else #else #endif" (by decide +kernel)
  have hcount := hnested.conditionals.endings_add
  exact absurd hcount (by decide +kernel)

/-- **Macro directives stay in macros.**  In an accepted text, a token that has a meaning in the body of
a macro only stands in the body of a macro that an item declares, or it is the unique mark; and outside
such bodies no item starts with such a token, be it the unique mark or not. -/
theorem confined_of_isOk (h : (ofText v text).isOk = true) :
    (∀ t ∈ Token.ofText text, t.kind.isMacroScoped = true → t.kind = .directive .unique ∨
      ∃ i ∈ Item.surfaceAll (ofText v text).items,
        i.HasInBody (TokenStream.ofText text).tokens t) ∧
    ∀ i ∈ Item.surfaceAll (ofText v text).items, ∃ t ∈ Token.ofText text,
      t.range.start = i.range.start ∧ t.kind.isMacroScoped = false := by
  obtain ⟨r', -, -, hsound⟩ := exists_sound v text
  have hconfined := hsound.confined (reported_of_isOk h) rfl
  refine ⟨fun t ht hscoped => ?_, fun i hi => ?_⟩
  · refine Classical.or_iff_not_imp_left.2 fun hunique => hconfined.bodies t (List.mem_filter.2 ⟨ht, ?_⟩)
      (TokenKind.isConfined_of_isMacroScoped hscoped hunique)
    unfold Token.isSignificant
    cases hk : t.kind with
    | directive word => rfl
    | _ => rw [hk] at hscoped; cases hscoped
  · obtain ⟨t, ht, hstart⟩ := hconfined.starts i hi
    exact ⟨t, (List.mem_filter.1 ht).1, hstart⟩

/-- The body of a macro in which an argument is tested, and a unique mark behind it. -/
theorem confined_of_isOk_ifarg :
    let text := "macro m(a) \x7b #m_ifarg a #m_code #m_endif \x7d = #m_unique;"
    (ofText .standard text).isOk = true ∧
      (∃ t ∈ Token.ofText text, t.kind = .directive .ifarg ∧
        ∃ i ∈ Item.surfaceAll (ofText .standard text).items,
          i.HasInBody (TokenStream.ofText text).tokens t) ∧
      (Item.surfaceAll (ofText .standard text).items).length = 2 ∧
      ∀ i ∈ Item.surfaceAll (ofText .standard text).items, ∃ t ∈ Token.ofText text,
        t.range.start = i.range.start ∧ t.kind.isMacroScoped = false := by
  intro text
  have hok : (ofText .standard text).isOk = true := by decide +kernel
  obtain ⟨hbodies, hstarts⟩ := confined_of_isOk hok
  have hifarg : (Token.ofText text).any (·.kind == .directive .ifarg) = true := by decide +kernel
  obtain ⟨t, ht, hkind⟩ := List.any_eq_true.1 hifarg
  have hkind := eq_of_beq hkind
  refine ⟨hok, ⟨t, ht, hkind, ?_⟩, by decide +kernel, hstarts⟩
  exact (hbodies t ht (by rw [hkind]; rfl)).resolve_left (by rw [hkind]; simp)

/-- A unique mark outside the bodies of macros that is accepted. -/
theorem not_confined_of_isOk :
    ¬∀ (v : Vocabulary) (text : String), (ofText v text).isOk = true →
      ∀ t ∈ Token.ofText text, t.kind.isMacroScoped = true →
        ∃ i ∈ Item.surfaceAll (ofText v text).items,
          i.HasInBody (TokenStream.ofText text).tokens t := by
  intro h
  have hmark : (Token.ofText "= #m_unique;").any (·.kind.isMacroScoped) = true := by decide +kernel
  obtain ⟨t, ht, hscoped⟩ := List.any_eq_true.1 hmark
  obtain ⟨i, hi, hdecl, -⟩ := h .standard "= #m_unique;" (by decide +kernel) t ht hscoped
  have hnone : ((Item.surfaceAll (ofText .standard "= #m_unique;").items).all
      fun i => i.kind matches .equation _) = true := by decide +kernel
  have hkind := List.all_eq_true.1 hnone i hi
  cases heq : i.kind with
  | macroDecl isList signatures body => rw [heq] at hkind; cases hkind
  | _ => rw [heq] at hdecl; cases hdecl

end Parsed

end ControlFile

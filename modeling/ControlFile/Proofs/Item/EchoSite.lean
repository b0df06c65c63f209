import ControlFile.Proofs.Item.EchoStatement

/-!
# Statements of a site are read back

What is behind a word of a site is a place for a value, or the name of an atom.  Such a name may be made
of several tokens that touch each other.
-/

namespace ControlFile

open Lexer Lexeme

theorem Cursor.FromText.isRead {c : Cursor} (h : c.FromText) : ∀ l ∈ c.lexemes, l.IsRead := by
  intro l hl
  obtain ⟨spaced, cs, hvalid, hrow⟩ := h
  rw [hrow, visible, List.mem_filter] at hl
  refine ⟨by simpa using hl.2, fun hi => ?_⟩
  have hkind : l.kind ∈ (Lexer.lexemes true cs).map (·.kind) := by
    rw [kinds_lexemes true spaced]
    exact List.mem_map_of_mem hl.1
  obtain ⟨m, hm, hml⟩ := List.mem_map.1 hkind
  exact hvalid m hm (hml.trans hi)

/-! ### Free words -/

/-- What a word of touching tokens goes on with. -/
def Lexeme.continuesWord (l : Lexeme) : Bool :=
  !l.spaced && (match l.kind with
    | .ident | .integer | .decimal | .operator .add | .operator .sub | .operator .mul => true
    | _ => false)

namespace Writing

/-- An occupancy without the word before it. -/
def occupancy : Writing Occupancy where
  text occ := occ.atom ++ " " ++ occ.value.render ++ spacedAll (occ.modifiers.map (·.render))
  bare := Occupancy.change .bare
  folded := Occupancy.change .foldSigns
  isOpen := Occupancy.isOpen
  like := AlikeBehind

/-- The displacement parameters without the word before them. -/
def adps : Writing (Adps Parameter) where
  text values := " ".intercalate
    ((Adps.words.toList.zip values.toList).map fun (u, value) => u.word ++ " " ++ value.render)
  bare := Adps.map Parameter.bare
  folded := Adps.map Parameter.foldSigns
  isOpen values := values.u23.isOpen
  like := AlikeBehind

end Writing

namespace Parser

variable {v : Vocabulary} {levels : Nat} {scope : Scope} {c : Cursor}

theorem lexemes_skipWord (c : Cursor) :
    (c.skipWhile continuesWord).lexemes = c.lexemes.dropWhile Lexeme.continuesWord := by
  rw [Cursor.lexemes, Cursor.lexemes, List.dropWhile_map]
  rfl

theorem freeWord?_run {starts : TokenKind → Bool} {l : Lexeme} {ls : List Lexeme}
    (h : c.lexemes = l :: ls) : freeWord? starts c =
      if l.kind = .directive .unique then .ok (some l.text) c.advance
      else if starts l.kind then
        .ok (some (textOf (l :: ls.takeWhile Lexeme.continuesWord))) (c.advance.skipWhile continuesWord)
      else .ok none c := by
  obtain ⟨rest, lastEnd, textEnd⟩ := c
  cases rest with
  | nil => cases h
  | cons t ts =>
    simp only [Cursor.lexemes, List.map_cons, List.cons.injEq] at h
    have htext : textOf (l :: ls.takeWhile Lexeme.continuesWord) =
        String.join (t.text :: (ts.takeWhile continuesWord).map (·.text)) := by
      have hsame : Lexeme.continuesWord ∘ Token.lexeme = continuesWord := rfl
      rw [← h.1, ← h.2, List.takeWhile_map, hsame]
      simp [textOf, Function.comp_def]
    rw [htext, ← h.1]
    rfl

/-- The tokens of a word: the unique mark, or tokens that touch each other. -/
structure IsWord (starts : TokenKind → Bool) (l : Lexeme) (ms : List Lexeme) : Prop where
  touching : ∀ m ∈ ms, m.continuesWord = true
  starts : l.kind = .directive .unique ∧ ms = [] ∨ l.kind ≠ .directive .unique ∧ starts l.kind = true

theorem ensures_freeWord? (starts : TokenKind → Bool) (c : Cursor) :
    Ensures (freeWord? starts) c fun o c' => ∀ w, o = some w →
      ∃ l ms, c.lexemes = l :: (ms ++ c'.lexemes) ∧ w = textOf (l :: ms) ∧ IsWord starts l ms := by
  rintro _ c' hrun w rfl
  match hrow : c.lexemes with
  | [] =>
    have hrest : c.rest = [] := by simpa [Cursor.lexemes] using hrow
    rw [freeWord?, hrest] at hrun
    cases hrun
  | l :: ls =>
    rw [freeWord?_run hrow] at hrun
    split at hrun
    · rename_i hunique
      cases hrun
      refine ⟨l, [], ?_, by simp [textOf], ⟨by simp, .inl ⟨hunique, rfl⟩⟩⟩
      rw [Cursor.lexemes_advance hrow, List.nil_append]
    · rename_i hunique
      split at hrun
      · rename_i hstart
        cases hrun
        refine ⟨l, ls.takeWhile Lexeme.continuesWord, ?_, rfl,
          ⟨fun m hm => List.mem_takeWhile_imp hm, .inr ⟨hunique, hstart⟩⟩⟩
        rw [lexemes_skipWord, Cursor.lexemes_advance hrow, List.takeWhile_append_dropWhile]
      · cases hrun

theorem freeWord?_row {starts : TokenKind → Bool} {l : Lexeme} {ms rs : List Lexeme} {s : Bool}
    (hword : IsWord starts l ms) (hrs : IsSpaced rs)
    (hc : c.lexemes = ⟨l.kind, l.text, s⟩ :: ms ++ rs) :
    ReadsTo (freeWord? starts) c id (some (textOf (l :: ms))) rs := by
  rw [List.cons_append] at hc
  rcases hword.starts with ⟨hunique, rfl⟩ | ⟨hunique, hstart⟩
  · refine ⟨some l.text, c.advance, by rw [freeWord?_run hc, if_pos hunique], ?_,
      Cursor.lexemes_advance hc⟩
    simp [textOf]
  · have hstop : rs.takeWhile Lexeme.continuesWord = [] ∧ rs.dropWhile Lexeme.continuesWord = rs := by
      cases rs with
      | nil => exact ⟨rfl, rfl⟩
      | cons m rs =>
        have hno : m.continuesWord = false := by
          rw [Lexeme.continuesWord, hrs m rfl]
          rfl
        exact ⟨List.takeWhile_cons_of_neg (by simp [hno]), List.dropWhile_cons_of_neg (by simp [hno])⟩
    refine ⟨some (textOf (l :: ms)), c.advance.skipWhile continuesWord, ?_, rfl, ?_⟩
    · rw [freeWord?_run hc, if_neg hunique, if_pos hstart, List.takeWhile_append_of_pos hword.touching,
        hstop.1, List.append_nil]
      rfl
    · rw [lexemes_skipWord, Cursor.lexemes_advance hc, List.dropWhile_append_of_pos hword.touching,
        hstop.2]

/-- **A word of touching tokens**, such as the name of an atom. -/
theorem echoes_freeWord? (hc : c.FromText) {starts : TokenKind → Bool}
    (hstarts : ∀ kind, starts kind = true → kind ≠ .mark .openParen ∧ kind.isAssign = false) :
    Ensures (freeWord? starts) c fun o c' => ∀ w, o = some w →
      ∃ row, c.Passes c' ∧ Prints w row ∧ (∀ s rs, AlikeBehind c.lexemes (row s ++ rs)) ∧
        ∀ s rs d, IsSpaced rs → d.lexemes = row s ++ rs →
          ReadsTo (freeWord? starts) d id (some w) rs := by
  intro o c' hrun w hw
  obtain ⟨l, ms, hrow, rfl, hword⟩ := ensures_freeWord? starts c o c' hrun w hw
  have hspells := hc.spells_touching hrow fun m hm => by
    have := hword.touching m hm
    simp only [Lexeme.continuesWord, Bool.and_eq_true, Bool.not_eq_true'] at this
    exact this.1
  have hread := hc.isRead
  have hkind : l.kind ≠ .mark .openParen ∧ l.kind.isAssign = false := by
    rcases hword.starts with ⟨hunique, -⟩ | ⟨-, hstart⟩
    · simp [hunique, TokenKind.isAssign]
    · exact hstarts _ hstart
  rw [hrow] at hread
  refine ⟨fun s => ⟨l.kind, l.text, s⟩ :: ms, ⟨?_, ?_⟩, ⟨hspells, fun s => ?_, fun s => ⟨_, _, rfl, rfl⟩⟩,
    fun s rs => ⟨?_, ?_⟩, fun s rs d hrs hd => freeWord?_row hword hrs hd⟩
  · rw [hrow]
    exact List.suffix_cons_iff.2 (.inr (List.suffix_append ms _))
  · rw [hrow, List.length_cons, List.length_append]
    omega
  · obtain ⟨hl, hms⟩ := List.forall_mem_cons.1 hread
    exact List.forall_mem_cons.2 ⟨hl, (List.forall_mem_append.1 hms).1⟩
  · rw [hrow, kind?_cons]
    simpa using hkind.1
  · rw [hrow]
    simp [startsAssign, hkind.2]

/-! ### Words of a site -/

theorem lexesAs_siteWord (w : SiteWord) : LexesAs .ident w.word := by
  rcases w with (_ | _ | _) | _ | (_ | _) | (_ | _ | _ | _ | _) | _ | (_ | _ | _ | _ | _ | _) <;>
    exact ⟨_, _, rfl, rfl⟩

theorem word_of_ofWord? {text : String} {w : SiteWord} (h : SiteWord.ofWord? text = some w) :
    w.word = text := by
  simpa using List.find?_some h

/-- The word of a site at a row. -/
def startsSiteWord : Lead → Option SiteWord
  | .word text _ _ => SiteWord.ofWord? text
  | _ => none

theorem siteWord?_eq (c : Cursor) : siteWord? c = startsSiteWord (lead c.lexemes) := by
  match hrow : c.lexemes with
  | [] =>
    have hrest : c.rest = [] := by simpa [Cursor.lexemes] using hrow
    rw [siteWord?, Cursor.peek?, hrest]
    rfl
  | l :: ls =>
    obtain ⟨t, ht, rfl⟩ := Cursor.peek?_zero hrow
    rw [siteWord?, ht]
    by_cases hident : t.kind = .ident
    · have : t.lexeme = ⟨.ident, t.text, t.spaced⟩ := by rw [Token.lexeme, hident]
      rw [this, lead_ident]
      simp only [hident, if_true]
      rfl
    · simp only [if_neg hident]
      rw [lead]
      split
      · rfl
      · rw [Token.kind_lexeme, if_neg hident]
        rfl

theorem siteWord?_alike {d : Cursor} (h : Alike c.lexemes d.lexemes) : siteWord? d = siteWord? c := by
  rw [siteWord?_eq, siteWord?_eq]
  exact (h.congr startsSiteWord rfl).symm

/-- At a word of a site. -/
theorem lexemes_of_siteWord? {w : SiteWord} (h : siteWord? c = some w) :
    ∃ s ls, c.lexemes = ⟨.ident, w.word, s⟩ :: ls := by
  rw [siteWord?] at h
  cases hpeek : c.peek? 0 with
  | none => simp [hpeek] at h
  | some t =>
    rw [hpeek] at h
    by_cases hident : t.kind = .ident
    · simp only [hident, if_true] at h
      obtain ⟨rest, lastEnd, textEnd⟩ := c
      cases rest with
      | nil => cases hpeek
      | cons u us =>
        cases hpeek
        exact ⟨t.spaced, us.map Token.lexeme, by
          rw [Cursor.lexemes, List.map_cons, Token.lexeme, hident, word_of_ofWord? h]⟩
    · simp [hident] at h

theorem siteWord?_row {w : SiteWord} {s : Bool} {ls : List Lexeme}
    (h : c.lexemes = ⟨.ident, w.word, s⟩ :: ls) : siteWord? c = some w := by
  rw [siteWord?_eq, h, lead_ident]
  exact SiteWord.ofWord?_word w

theorem startsCall_of_isSpaced {l : Lexeme} {ls : List Lexeme} (h : IsSpaced ls) :
    startsCall (l :: ls) = false := startsCall_eq_false h.isLoose

/-- **A word, and what is behind it.** -/
theorem echo_behindWord {w text : String} {row : Bool → List Lexeme} {s : Bool} {ls : List Lexeme}
    {c' : Cursor} (hw : LexesAs .ident w) (hrow : c.lexemes = ⟨.ident, w, s⟩ :: ls)
    (h : Echo AlikeBehind text row c.advance c') :
    Echo Alike (w ++ " " ++ text) (fun s => ⟨.ident, w, s⟩ :: row true) c c' where
  passes := (Cursor.passes_advance hrow).trans h.passes
  prints := (hw.prints rfl (by simp)).spaced h.prints
  start t rs hrs := by
    have hbehind := h.start true rs hrs
    rw [Cursor.lexemes_advance hrow] at hbehind
    refine .of_eq ?_
    have hcall : startsCall (⟨.ident, w, s⟩ :: ls) = false := by
      cases ls with
      | nil => rfl
      | cons l ls =>
        have := hbehind.noCall
        rw [kind?_cons, Ne, Option.some.injEq] at this
        simp [startsCall, this]
    rw [hrow, List.cons_append, lead_ident, lead_ident, hcall,
      startsCall_of_isSpaced (h.prints.isSpaced rs), hbehind.assign]

/-! ### Occupancies and displacements -/

theorem spacedAll_cons (text : String) (texts : List String) :
    spacedAll (text :: texts) = " " ++ text ++ spacedAll texts := by
  rw [spacedAll, List.map_cons, String.join_cons]
  rfl

section Slot

variable {slot : Parser Parameter} (hslot : ∀ c : Cursor, c.FromText → Echoes .parameter slot c)

theorem occModifiers_stop (h : ∀ w, siteWord? c ≠ some (.occupancy w)) (limit : Nat) :
    occModifiers slot limit c = .ok [] c := by
  cases limit with
  | zero => rfl
  | succ limit =>
    rw [occModifiers, get_bind]
    cases hw : siteWord? c with
    | none => rfl
    | some w =>
      cases w with
      | occupancy w => exact absurd hw (h w)
      | _ => rfl

theorem occModifiers_word {w : OccupancyWord} (h : siteWord? c = some (.occupancy w)) (limit : Nat) :
    occModifiers slot (limit + 1) c =
      (do let value ← slot
          return ⟨w, value⟩ :: (← occModifiers slot limit) : Parser (List OccModifier)) c.advance := by
  rw [occModifiers, get_bind, h]
  rfl

include hslot

/-- The values behind that of an occupancy. -/
theorem echoes_occModifiers (limit : Nat) {c : Cursor} (hc : c.FromText)
    (hlimit : c.lexemes.length ≤ limit) :
    Ensures (occModifiers slot limit) c fun ms c' => c'.lexemes <:+ c.lexemes ∧ ∃ row,
      Trails (spacedAll (ms.map (·.render))) row ∧ (ms = [] → row = []) ∧
      ∀ rs, Follows c'.lexemes rs → Follows c.lexemes (row ++ rs) ∧
        (ms ≠ [] → startsMinusNumber (row ++ rs) = false) ∧
        ∀ limit d, d.lexemes.length ≤ limit →
          (∀ m ∈ ms.getLast?, m.value.isOpen = true → startsMinusNumber rs = false) →
          d.lexemes = row ++ rs → ReadsTo (occModifiers slot limit) d (List.map (·.change .bare))
            ((ms.map (·.change .foldSigns)).map (·.change .bare)) rs := by
  induction limit generalizing c with
  | zero =>
    have hnil : c.lexemes = [] := List.length_eq_zero_iff.1 (Nat.le_zero.1 hlimit)
    refine Ensures.pure ⟨List.suffix_refl _, [], Trails.nil, fun _ => rfl, fun rs hrs =>
      ⟨hrs, by simp, fun limit d _ _ hd => ⟨[], d, occModifiers_stop (fun w => ?_) _, rfl, hd⟩⟩⟩
    rw [siteWord?_alike (c := c) (hd ▸ hrs.alike), siteWord?_eq, hnil]
    simp [lead, startsSiteWord]
  | succ limit ih =>
    intro ms c' hrun
    by_cases hword : ∃ w, siteWord? c = some (.occupancy w)
    · obtain ⟨w, hword⟩ := hword
      obtain ⟨s, ls, hrow⟩ := lexemes_of_siteWord? hword
      have hpasses := Cursor.passes_advance hrow
      rw [occModifiers_word hword] at hrun
      obtain ⟨value, c₁, hvalue, hrun⟩ := ok_of_bind hrun
      obtain ⟨ms', c₂, hms, hrun⟩ := ok_of_bind hrun
      cases hrun
      obtain ⟨row₁, hecho, hreads⟩ := hslot _ (hc.of_passes hpasses) value c₁ hvalue
      have hecho' := echo_behindWord (lexesAs_siteWord (.occupancy w)) hrow hecho
      obtain ⟨hsuffix, row₂, htrails, hempty, hrest⟩ := ih (hc.of_passes hecho'.passes)
        (by have := hecho'.passes.shorter; omega) ms' c' hms
      have htext : spacedAll ((⟨w, value⟩ :: ms').map (·.render)) =
          String.ofList [' '] ++ (w.word ++ " " ++ value.render) ++ spacedAll (ms'.map (·.render)) := by
        rw [List.map_cons, spacedAll_cons]
        rfl
      refine ⟨hsuffix.trans hecho'.passes.suffix, _,
        htext ▸ (hecho'.prints.blank (c := ' ') rfl).append htrails, by simp, fun rs hrs => ?_⟩
      obtain ⟨hfollows, hminus, hagain⟩ := hrest rs hrs
      refine ⟨?_, fun _ => ?_, fun limit d hlimit hopen hd => ?_⟩
      · rw [List.append_assoc]
        exact hecho'.follows hfollows
      · exact startsMinusNumber_cons_of_ne (by simp)
      · rw [List.append_assoc, List.cons_append] at hd
        cases limit with
        | zero => simp [hd] at hlimit
        | succ limit =>
          have hadvance := Cursor.lexemes_advance hd
          have hopen' : Writing.parameter.isOpen value = true →
              startsMinusNumber (row₂ ++ rs) = false := by
            intro hvalue
            cases ms' with
            | nil =>
              rw [hempty rfl]
              exact hopen _ rfl hvalue
            | cons m ms => exact hminus (by simp)
          obtain ⟨b, d₁, hrun₁, hb, hd₁⟩ := hreads true _ d.advance hfollows hopen' hadvance
          obtain ⟨bs, d₂, hrun₂, hbs, hd₂⟩ := hagain limit d₁ (by
            rw [hd₁]
            have := congrArg List.length hd
            simp only [List.length_cons, List.length_append] at this ⊢
            omega) (fun m hm => hopen m (by
              cases ms' with
              | nil => cases hm
              | cons m' ms' => rwa [List.getLast?_cons_cons])) hd₁
          refine ⟨⟨w, b⟩ :: bs, d₂, ?_, ?_, hd₂⟩
          · rw [occModifiers_word (siteWord?_row hd), bind_of_ok hrun₁, bind_of_ok hrun₂]
            rfl
          · rw [List.map_cons, List.map_cons, List.map_cons, hbs]
            exact congrArg (fun p => OccModifier.mk w p :: _) hb
    · have hstop : ∀ w, siteWord? c ≠ some (.occupancy w) := fun w hw => hword ⟨w, hw⟩
      rw [occModifiers_stop hstop] at hrun
      cases hrun
      refine ⟨List.suffix_refl _, [], Trails.nil, fun _ => rfl, fun rs hrs =>
        ⟨hrs, by simp, fun limit d _ _ hd => ⟨[], d, occModifiers_stop (fun w => ?_) _, rfl, hd⟩⟩⟩
      rw [siteWord?_alike (c := c) (hd ▸ hrs.alike)]
      exact hstop w

/-- An occupancy.  Where its first word ends matters for failures only. -/
theorem echoes_occupancy (hc : c.FromText) (wordEnd : Nat) :
    Ensures (occupancy slot wordEnd) c fun occ c' => ∃ row,
      Echo AlikeBehind (Writing.occupancy.text occ) row c c' ∧
        ∀ wordEnd, ReadsBack .occupancy (occupancy slot wordEnd) occ row c' := by
  intro occ c' hrun
  unfold occupancy at hrun
  obtain ⟨atom, c₁, hatom, hrun⟩ := ok_of_bind hrun
  cases atom with
  | none => cases hrun
  | some atom =>
    obtain ⟨value, c₂, hvalue, hrun⟩ := ok_of_bind hrun
    rw [get_bind] at hrun
    obtain ⟨ms, c₃, hms, hrun⟩ := ok_of_bind hrun
    cases hrun
    obtain ⟨row₁, hpasses₁, hprints₁, hstart₁, hreads₁⟩ := echoes_freeWord? hc
      (fun kind (h : (kind == .ident) = true) => by simp [beq_iff_eq.1 h, TokenKind.isAssign]) _ c₁
      hatom atom rfl
    have hc₁ := hc.of_passes hpasses₁
    obtain ⟨row₂, hecho₂, hreads₂⟩ := hslot _ hc₁ value c₂ hvalue
    have hc₂ := hc₁.of_passes hecho₂.passes
    obtain ⟨hsuffix, row₃, htrails, hempty, hrest⟩ := echoes_occModifiers hslot _ hc₂
      (Nat.le_of_eq (Cursor.length_lexemes c₂)) ms c' hms
    refine ⟨fun s => row₁ s ++ row₂ true ++ row₃, ⟨?_, ?_, fun s rs _ => ?_⟩, ?_⟩
    · exact (hpasses₁.trans hecho₂.passes).of_suffix hsuffix
    · exact (hprints₁.spaced hecho₂.prints).trails htrails
    · rw [List.append_assoc, List.append_assoc]
      exact hstart₁ s _
    · intro wordEnd s rs d hrs hopen hd
      rw [List.append_assoc, List.append_assoc] at hd
      obtain ⟨hfollows, hminus, hagain⟩ := hrest rs hrs
      have hopen' : Writing.parameter.isOpen value = true → startsMinusNumber (row₃ ++ rs) = false := by
        intro hvalue
        cases ms with
        | nil =>
          rw [hempty rfl]
          exact hopen hvalue
        | cons m ms => exact hminus (by simp)
      obtain ⟨_, d₁, hrun₁, rfl, hd₁⟩ := hreads₁ s _ d (hecho₂.prints.isSpaced _) hd
      obtain ⟨b, d₂, hrun₂, hb, hd₂⟩ := hreads₂ true _ d₁ hfollows hopen' hd₁
      obtain ⟨bs, d₃, hrun₃, hbs, hd₃⟩ := hagain _ d₂ (Nat.le_of_eq (Cursor.length_lexemes d₂))
        (fun m hm hvalue => hopen (by
          change Occupancy.isOpen _ = true
          rw [Occupancy.isOpen, Option.mem_def.1 hm]
          exact hvalue)) hd₂
      refine ⟨⟨atom, b, bs⟩, d₃, ?_, ?_, hd₃⟩
      · unfold occupancy
        rw [bind_of_ok hrun₁]
        dsimp only [id]
        rw [bind_of_ok hrun₂, get_bind, bind_of_ok hrun₃]
        rfl
      · exact congrArg₂ (fun p ms => Occupancy.mk atom p ms) hb hbs

/-- A displacement parameter, with the word before it. -/
theorem echoes_adp (hc : c.FromText) (word : AdpWord) :
    Ensures (adp slot word) c fun p c' => ∃ row,
      Echo Alike (word.word ++ " " ++ p.render) row c c' ∧ ReadsBack .parameter (adp slot word) p row c' ∧
        (∀ s rs, startsMinusNumber (row s ++ rs) = false) ∧
        Lexeme.kind? c.lexemes = some .ident := by
  intro p c' hrun
  unfold adp at hrun
  rw [get_bind] at hrun
  split at hrun
  · rename_i hword
    obtain ⟨s, ls, hrow⟩ := lexemes_of_siteWord? hword
    obtain ⟨row, hecho, hreads⟩ := hslot _ (hc.of_passes (Cursor.passes_advance hrow)) p c' hrun
    refine ⟨_, echo_behindWord (lexesAs_siteWord (.adp word)) hrow hecho, ?_,
      fun s rs => startsMinusNumber_cons_of_ne (by simp), by rw [hrow]; rfl⟩
    intro s rs d hrs hopen hd
    rw [List.cons_append] at hd
    obtain ⟨b, d', hrun', hb, hd'⟩ := hreads true rs d.advance hrs hopen (Cursor.lexemes_advance hd)
    refine ⟨b, d', ?_, hb, hd'⟩
    unfold adp
    rw [get_bind, if_pos (siteWord?_row hd)]
    exact hrun'
  · cases hrun

omit hslot in
theorem intercalate_six (s t₁ t₂ t₃ t₄ t₅ t₆ : String) : s.intercalate [t₁, t₂, t₃, t₄, t₅, t₆] =
    t₁ ++ s ++ (t₂ ++ s ++ (t₃ ++ s ++ (t₄ ++ s ++ (t₅ ++ s ++ t₆)))) := by
  simp only [String.intercalate_cons_cons, String.intercalate_singleton, String.append_assoc]

/-- The displacement parameters without the word before them. -/
theorem echoes_adps (hc : c.FromText) : Echoes .adps (Adps.words.mapM (adp slot)) c := by
  intro values c' hrun
  unfold Adps.mapM at hrun
  obtain ⟨p₁, c₁, h₁, hrun⟩ := ok_of_bind hrun
  obtain ⟨p₂, c₂, h₂, hrun⟩ := ok_of_bind hrun
  obtain ⟨p₃, c₃, h₃, hrun⟩ := ok_of_bind hrun
  obtain ⟨p₄, c₄, h₄, hrun⟩ := ok_of_bind hrun
  obtain ⟨p₅, c₅, h₅, hrun⟩ := ok_of_bind hrun
  obtain ⟨p₆, c₆, h₆, hrun⟩ := ok_of_bind hrun
  cases hrun
  obtain ⟨row₁, hecho₁, hreads₁, -, hkind⟩ := echoes_adp hslot hc _ p₁ c₁ h₁
  have hc₁ := hc.of_passes hecho₁.passes
  obtain ⟨row₂, hecho₂, hreads₂, hm₂, -⟩ := echoes_adp hslot hc₁ _ p₂ c₂ h₂
  have hc₂ := hc₁.of_passes hecho₂.passes
  obtain ⟨row₃, hecho₃, hreads₃, hm₃, -⟩ := echoes_adp hslot hc₂ _ p₃ c₃ h₃
  have hc₃ := hc₂.of_passes hecho₃.passes
  obtain ⟨row₄, hecho₄, hreads₄, hm₄, -⟩ := echoes_adp hslot hc₃ _ p₄ c₄ h₄
  have hc₄ := hc₃.of_passes hecho₄.passes
  obtain ⟨row₅, hecho₅, hreads₅, hm₅, -⟩ := echoes_adp hslot hc₄ _ p₅ c₅ h₅
  have hc₅ := hc₄.of_passes hecho₅.passes
  obtain ⟨row₆, hecho₆, hreads₆, hm₆, -⟩ := echoes_adp hslot hc₅ _ p₆ c' h₆
  have hecho := hecho₁.trans (hecho₂.trans (hecho₃.trans (hecho₄.trans (hecho₅.trans hecho₆))))
  refine ⟨fun s => row₁ s ++ (row₂ true ++ (row₃ true ++ (row₄ true ++ (row₅ true ++ row₆ true)))),
    ⟨hecho.passes, ?_, fun s rs hrs => ?_⟩, ?_⟩
  · rw [show Writing.adps.text ⟨p₁, p₂, p₃, p₄, p₅, p₆⟩ = _ from intercalate_six ..]
    exact hecho.prints
  · exact .of_alike (hecho.start s rs hrs) (by simp [hkind])
  · intro s rs d hrs hopen hd
    simp only [List.append_assoc] at hd
    have hf₆ := hecho₆.follows hrs
    have hf₅ := hecho₅.follows hf₆
    have hf₄ := hecho₄.follows hf₅
    have hf₃ := hecho₃.follows hf₄
    have hf₂ := hecho₂.follows hf₃
    obtain ⟨b₁, d₁, hrun₁, hb₁, hd₁⟩ := hreads₁ s _ d hf₂ (fun _ => hm₂ ..) hd
    obtain ⟨b₂, d₂, hrun₂, hb₂, hd₂⟩ := hreads₂ true _ d₁ hf₃ (fun _ => hm₃ ..) hd₁
    obtain ⟨b₃, d₃, hrun₃, hb₃, hd₃⟩ := hreads₃ true _ d₂ hf₄ (fun _ => hm₄ ..) hd₂
    obtain ⟨b₄, d₄, hrun₄, hb₄, hd₄⟩ := hreads₄ true _ d₃ hf₅ (fun _ => hm₅ ..) hd₃
    obtain ⟨b₅, d₅, hrun₅, hb₅, hd₅⟩ := hreads₅ true _ d₄ hf₆ (fun _ => hm₆ ..) hd₄
    obtain ⟨b₆, d₆, hrun₆, hb₆, hd₆⟩ := hreads₆ true _ d₅ hrs hopen hd₅
    refine ⟨⟨b₁, b₂, b₃, b₄, b₅, b₆⟩, d₆, ?_, ?_, hd₆⟩
    · unfold Adps.mapM
      rw [bind_of_ok hrun₁, bind_of_ok hrun₂, bind_of_ok hrun₃, bind_of_ok hrun₄, bind_of_ok hrun₅,
        bind_of_ok hrun₆]
      rfl
    · change Adps.mk _ _ _ _ _ _ = Adps.mk _ _ _ _ _ _
      rw [Adps.mk.injEq]
      exact ⟨hb₁, hb₂, hb₃, hb₄, hb₅, hb₆⟩

end Slot

/-! ### Statements -/

/-- A statement is read back if what is behind its word is. -/
theorem echoes_behindWord {α : Type} {w : Writing α} (hlike : w.like = AlikeBehind) {word : String}
    (hword : LexesAs .ident word) {k : α → ItemKind} (htext : ∀ a, (k a).render = word ++ " " ++ w.text a)
    (hbare : ∀ a b, w.bare a = w.bare (w.folded b) →
      (k a).change .bare = ((k b).change .foldSigns).change .bare)
    (hopen : ∀ a, (k a).isOpen = w.isOpen a) {p : Cursor → Parser α} {q : Parser ItemKind}
    (hq : ∀ d s ls, d.lexemes = ⟨.ident, word, s⟩ :: ls →
      q d = (do return k (← p d) : Parser ItemKind) d.advance)
    {s : Bool} {ls : List Lexeme} (hrow : c.lexemes = ⟨.ident, word, s⟩ :: ls)
    (h : Ensures (p c) c.advance fun a c' => ∃ row, Echo w.like (w.text a) row c.advance c' ∧
      ∀ d, ReadsBack w (p d) a row c') : Echoes .kind q c := by
  intro i c' hrun
  rw [hq c s ls hrow] at hrun
  obtain ⟨a, c₁, ha, hrun⟩ := ok_of_bind hrun
  cases hrun
  obtain ⟨row, hecho, hreads⟩ := h a c' ha
  rw [hlike] at hecho
  refine ⟨_, htext a ▸ echo_behindWord hword hrow hecho, fun s rs d hrs hopen' hd => ?_⟩
  rw [List.cons_append] at hd
  obtain ⟨b, d', hrun', hb, hd'⟩ := hreads d true rs d.advance hrs
    (fun hvalue => hopen' ((hopen a).trans hvalue)) (Cursor.lexemes_advance hd)
  refine ⟨k b, d', ?_, hbare b a hb, hd'⟩
  rw [hq d s _ hd, bind_of_ok hrun']
  rfl

theorem spacedAll_eq_intercalate (text : String) (texts : List String) :
    spacedAll (text :: texts) = " " ++ " ".intercalate (text :: texts) := by
  induction texts generalizing text with
  | nil => simp [spacedAll, String.join_cons]
  | cons t ts ih =>
    rw [spacedAll_cons, ih, String.intercalate_cons_cons, String.append_assoc, String.append_assoc]

/-- **A statement of a site.** -/
theorem echoes_siteStatement (hc : c.FromText) {word : SiteWord} {s : Bool} {ls : List Lexeme}
    (hrow : c.lexemes = ⟨.ident, word.word, s⟩ :: ls) :
    Echoes .kind (siteStatement v (expression v levels true) scope word) c := by
  have hslot : ∀ fixed, ∀ c : Cursor, c.FromText →
      Echoes .parameter (valueSlot v (expression v levels true) scope fixed) c :=
    fun fixed c hc => echoes_valueSlot hc fixed
  have hc₁ := hc.of_passes (Cursor.passes_advance hrow)
  have hfixed : ∀ {α : Type} {w : Writing α} {p : Parser α}, Echoes w p c.advance →
      Ensures p c.advance fun a c' => ∃ row, Echo w.like (w.text a) row c.advance c' ∧
        ∀ _ : Cursor, ReadsBack w p a row c' := fun h =>
    h.mono fun _ _ ⟨row, hecho, hreads⟩ => ⟨row, hecho, fun _ => hreads⟩
  cases word with
  | axis a =>
    exact echoes_behindWord (w := .parameter) rfl (lexesAs_siteWord (.axis a))
      (k := fun p => .siteStatement (.coordinate a p)) (fun _ => rfl)
      (fun p q h => congrArg (fun p => ItemKind.siteStatement (.coordinate a p)) h) (fun _ => rfl)
      (fun _ _ _ _ => rfl) hrow (hfixed (hslot false _ hc₁))
  | scalar n =>
    exact echoes_behindWord (w := .parameter) rfl (lexesAs_siteWord (.scalar n))
      (k := fun p => .siteStatement (.scalar n p)) (fun _ => rfl)
      (fun p q h => congrArg (fun p => ItemKind.siteStatement (.scalar n p)) h) (fun _ => rfl)
      (fun _ _ _ _ => rfl) hrow (hfixed (hslot n.isFixed _ hc₁))
  | occ =>
    refine echoes_behindWord (w := .occupancy) rfl (lexesAs_siteWord .occ)
      (k := fun occ => .siteStatement (.occupancy occ)) (fun occ => ?_)
      (fun p q h => congrArg (fun occ => ItemKind.siteStatement (.occupancy occ)) h) (fun _ => rfl)
      (fun _ _ _ _ => rfl) hrow ((echoes_occupancy (hslot false) hc₁ _).mono fun occ c' h => ?_)
    · simp [ItemKind.render, SiteStatement.render, Writing.occupancy, SiteWord.word, String.append_assoc]
    · obtain ⟨row, hecho, hreads⟩ := h
      exact ⟨row, hecho, fun d => hreads d.here.stop⟩
  | adps =>
    refine echoes_behindWord (w := .adps) rfl (lexesAs_siteWord .adps)
      (k := fun values => .siteStatement (.adps values)) (fun values => ?_)
      (fun p q h => congrArg (fun values => ItemKind.siteStatement (.adps values)) h) (fun _ => rfl)
      (fun _ _ _ _ => rfl) hrow (hfixed (echoes_adps (hslot false) hc₁))
    simp only [ItemKind.render, SiteStatement.render, Writing.adps, SiteWord.word, Adps.toList,
      Adps.words, List.zip_cons_cons, List.map_cons, spacedAll_eq_intercalate, String.append_assoc]
  | occupancy _ => exact fun _ _ h => by cases h
  | adp _ => exact fun _ _ h => by cases h

end Parser

end ControlFile

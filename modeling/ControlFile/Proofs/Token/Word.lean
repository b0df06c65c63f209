import ControlFile.Expr.Basic
import ControlFile.Proofs.Token.Genuine

/-!
# Words of conditionals, and the unique mark

Two things that tokens tell about a text without any parsing: which words of conditionals it has
(`chainWords`), and that a text without `#m_unique` has no token that starts as the unique mark does
and could be taken for a name (`Token.isUnmarked_of_mem`).
-/

namespace ControlFile

/-! ### Words of conditionals -/

/-- A word of a conditional, with its family. -/
abbrev ChainToken := Family × ChainWord

/-- The word of a conditional that a token is.  `#ifdef` and `#ifndef` open conditionals of the
document, and `#m_ifarg` opens one of a macro. -/
def TokenKind.chainWord? : TokenKind → Option ChainToken
  | .directive (.chain family word) => some (family, word)
  | .directive .ifdef | .directive .ifndef => some (.document, .opening)
  | .directive .ifarg => some (.macroBody, .opening)
  | _ => none

/-- The words of conditionals in a row of tokens. -/
def chainWords (ts : List Token) : List ChainToken := ts.filterMap (·.kind.chainWord?)

@[simp] theorem chainWords_nil : chainWords [] = [] := rfl

@[simp] theorem chainWords_append (ts us : List Token) :
    chainWords (ts ++ us) = chainWords ts ++ chainWords us := List.filterMap_append

theorem chainWords_cons_some {t : Token} {w : ChainToken} (h : t.kind.chainWord? = some w)
    (ts : List Token) : chainWords (t :: ts) = w :: chainWords ts := List.filterMap_cons_some h

theorem chainWords_cons_none {t : Token} (h : t.kind.chainWord? = none) (ts : List Token) :
    chainWords (t :: ts) = chainWords ts := List.filterMap_cons_none h

theorem chainWords_eq_nil {ts : List Token} (h : ∀ t ∈ ts, t.kind.chainWord? = none) :
    chainWords ts = [] := List.filterMap_eq_nil_iff.2 h

/-- Only directives are words of conditionals. -/
theorem TokenKind.chainWord?_of_not_isDirective {k : TokenKind} (h : k.isDirective = false) :
    k.chainWord? = none := by
  cases k with
  | directive word => cases h
  | _ => rfl

/-- Whether the kind is that of a directive which has a meaning in the body of a macro only, and is
not the unique mark, which stands for a name. -/
def TokenKind.isConfined : TokenKind → Bool
  | .directive .unique => false
  | .directive word => word.isMacroScoped
  | _ => false

theorem TokenKind.isConfined_of_not_isDirective {k : TokenKind} (h : k.isDirective = false) :
    k.isConfined = false := by
  cases k with
  | directive word => cases h
  | _ => rfl

theorem TokenKind.isConfined_of_not_isMacroScoped {k : TokenKind} (h : k.isMacroScoped = false) :
    k.isConfined = false := by
  cases k with
  | directive word => cases word <;> first | rfl | exact h
  | _ => rfl

/-- The conditionals of a document have a meaning everywhere. -/
theorem TokenKind.isMacroScoped_of_chainWord? {k : TokenKind} {word : ChainWord}
    (h : k.chainWord? = some (.document, word)) : k.isMacroScoped = false := by
  unfold chainWord? at h
  split at h <;> cases h <;> rfl

/-- What has a meaning in the body of a macro only is confined to it, or the unique mark. -/
theorem TokenKind.isConfined_of_isMacroScoped {k : TokenKind} (h : k.isMacroScoped = true)
    (hunique : k ≠ .directive .unique) : k.isConfined = true := by
  cases k with
  | directive word => cases word <;> first | exact h | exact absurd rfl hunique
  | _ => cases h

/-- Whether a token of the kind may occur in an expression or a statement. -/
def TokenKind.isPlain (k : TokenKind) : Bool := k.chainWord?.isNone && !k.isConfined

theorem TokenKind.isPlain_iff {k : TokenKind} :
    k.isPlain = true ↔ k.chainWord? = none ∧ k.isConfined = false := by
  simp [isPlain]

theorem TokenKind.isPlain_of_not_isDirective {k : TokenKind} (h : k.isDirective = false) :
    k.isPlain = true :=
  isPlain_iff.2 ⟨chainWord?_of_not_isDirective h, isConfined_of_not_isDirective h⟩

/-- Blanks, comments and invalid tokens are no words of conditionals. -/
theorem chainWord?_of_not_isSignificant {t : Token} (h : t.isSignificant = false) :
    t.kind.chainWord? = none := by
  unfold Token.isSignificant at h
  cases hk : t.kind with
  | directive word => simp [hk, TokenKind.isTrivia] at h
  | _ => rfl

/-- The words of conditionals of a text are those of its significant tokens. -/
theorem chainWords_filter (ts : List Token) :
    chainWords (ts.filter Token.isSignificant) = chainWords ts := by
  induction ts with
  | nil => rfl
  | cons t ts ih =>
    cases ht : t.isSignificant with
    | true =>
      rw [List.filter_cons_of_pos ht]
      cases hw : t.kind.chainWord? with
      | none => rw [chainWords_cons_none hw, chainWords_cons_none hw, ih]
      | some w => rw [chainWords_cons_some hw, chainWords_cons_some hw, ih]
    | false =>
      rw [List.filter_cons_of_neg (by simp [ht]),
        chainWords_cons_none (chainWord?_of_not_isSignificant ht), ih]

/-! ### The unique mark -/

/-- A text that does not start as the unique mark does. -/
def IsUnmarkedText (text : String) : Prop := text.toList.head? ≠ some '#'

theorem IsUnmarkedText.ne_uniqueMark {text : String} (h : IsUnmarkedText text) :
    text ≠ uniqueMark := by
  rintro rfl
  exact h (by decide)

/-- What is joined of texts that do not start as the unique mark does is such a text again. -/
theorem isUnmarkedText_join {texts : List String} (h : ∀ text ∈ texts, IsUnmarkedText text) :
    IsUnmarkedText (String.join texts) := by
  have hlist : ∀ texts : List String, (∀ text ∈ texts, IsUnmarkedText text) →
      (texts.flatMap String.toList).head? ≠ some '#' := by
    intro texts
    induction texts with
    | nil => intro _; simp
    | cons text texts ih =>
      intro h
      have htext : IsUnmarkedText text := h text (by simp)
      have hrest := ih fun other hother => h other (List.mem_cons_of_mem _ hother)
      rw [List.flatMap_cons, List.head?_append]
      unfold IsUnmarkedText at htext
      cases hhead : text.toList.head? with
      | none => simpa using hrest
      | some c =>
        rw [hhead] at htext
        simpa using htext
  unfold IsUnmarkedText
  rw [String.toList_join]
  exact hlist texts h

/-- The token is not the unique mark, and if it is no directive it does not start as one. -/
def Token.IsUnmarked (t : Token) : Prop :=
  t.kind ≠ .directive .unique ∧ (t.kind.isDirective = false → IsUnmarkedText t.text)

/-- Only directives start with `#`. -/
theorem LexesAs.isUnmarkedText {kind : TokenKind} {text : String} (h : LexesAs kind text)
    (hd : kind.isDirective = false) (hi : kind ≠ .invalid) : IsUnmarkedText text := by
  obtain ⟨c, cs, htext, hfirst⟩ := h
  intro hhead
  rw [htext, List.head?_cons, Option.some.injEq] at hhead
  subst hhead
  have hdirective : (Lexer.directive cs).1 = kind := by
    rw [← show Lexer.first '#' cs = Lexer.directive cs from rfl, hfirst]
  unfold Lexer.directive at hdirective
  split at hdirective
  · split at hdirective
    · exact absurd hd (by simp [← hdirective, TokenKind.isDirective])
    · exact hi hdirective.symm
  · exact hi hdirective.symm

/-- **Nothing is marked in a text without the mark.** -/
theorem Token.isUnmarked_of_mem {text : String}
    (hnone : ∀ t ∈ Token.ofText text, t.kind ≠ .directive .unique) :
    ∀ t ∈ (TokenStream.ofText text).tokens, t.IsUnmarked := by
  intro t ht
  obtain ⟨hmem, hs⟩ := List.mem_filter.1 ht
  refine ⟨hnone t hmem, fun hd => (lexesAs_of_mem_scan hmem hs).isUnmarkedText hd ?_⟩
  rintro hi
  simp [Token.isSignificant, hi] at hs

end ControlFile

import ControlFile.Proofs.Expr.Reading
import ControlFile.Proofs.Expr.Sound
import ControlFile.Proofs.Item.Bare

/-!
# What follows an item

A parser of items stops where something follows that is not part of the item.  What it sees of that
is how it starts (`Lead`), so it stops at the same place where the item has been written and
something follows that starts alike (`Follows`).

The one thing that does not start alike is a minus with space behind it, which comes to touch a number.
It ends all that does not end with an open place.
-/

namespace ControlFile

/-! ### Questions about the start -/

namespace Lead

/-- What a question about the first token is answered with.  Numbers and minus signs are no
answer. -/
def asks (f : TokenKind → Bool) : Lead → Bool
  | .nothing | .number => false
  | .word .. => f .ident
  | .other kind => f kind

/-- At a name for a parameter. -/
def isParameterName (v : Vocabulary) : Lead → Bool
  | .word text _ _ => !v.isReserved text
  | .other kind => kind == .directive .unique
  | _ => false

/-- The operation that goes on between items. -/
def operation? : Lead → Option BinaryOp
  | .other (.operator op) => if op = .pow ∨ op = .juxtaposed then none else some op
  | _ => none

/-- At a member of a site. -/
def isMember : Lead → Bool
  | .word text call _ => (SiteWord.ofWord? text).isSome || call
  | .other (.directive d) => !d.closesBranch
  | _ => false

end Lead

namespace Lexeme

variable {src out : List Lexeme}

/-- The numbers and the minus signs before them. -/
theorem lead_eq_number_iff {ls : List Lexeme} : lead ls = .number ↔
    startsMinusNumber ls = true ∨ ∃ kind, kind? ls = some kind ∧ kind.isNumber = true := by
  cases ls with
  | nil => simp [lead, startsMinusNumber]
  | cons l ls =>
    rw [kind?_cons]
    by_cases h : (l.kind.isNumber || startsMinusNumber (l :: ls)) = true
    · rw [lead, if_pos h]
      rw [Bool.or_eq_true] at h
      exact ⟨fun _ => h.elim (fun h => .inr ⟨_, rfl, h⟩) .inl, fun _ => rfl⟩
    · rw [lead, if_neg h]
      have hne : (if l.kind = .ident then Lead.word l.text (startsCall (l :: ls)) (startsAssign ls)
          else .other (leading l.kind)) ≠ .number := by
        split <;> exact Lead.noConfusion
      refine ⟨fun heq => absurd heq hne, fun hor => absurd ?_ h⟩
      rw [Bool.or_eq_true]
      rcases hor with hm | ⟨_, ⟨⟩, hn⟩
      · exact .inr hm
      · exact .inl hn

theorem kind?_of_startsMinusNumber {ls : List Lexeme} (h : startsMinusNumber ls = true) :
    kind? ls = some (.operator .sub) := by
  match ls with
  | [] => exact Bool.noConfusion h
  | [l] => exact Bool.noConfusion h
  | l :: n :: ls =>
    simp only [startsMinusNumber, Bool.and_eq_true, beq_iff_eq] at h
    rw [kind?_cons, h.1.1]

/-- All other tokens show what they are. -/
theorem lead_of_ne_number {l : Lexeme} {ls : List Lexeme} (h : lead (l :: ls) ≠ .number) :
    startsMinusNumber (l :: ls) = false ∧
      (l.kind = .ident ∧ lead (l :: ls) = .word l.text (startsCall (l :: ls)) (startsAssign ls) ∨
        lead (l :: ls) = .other (leading l.kind)) := by
  have hnot : (l.kind.isNumber || startsMinusNumber (l :: ls)) = false := by
    rw [← Bool.not_eq_true]
    intro hnum
    exact h (by rw [lead, hnum]; rfl)
  refine ⟨(Bool.or_eq_false_iff.1 hnot).2, ?_⟩
  rw [lead, hnot, if_neg Bool.false_ne_true]
  split
  · exact .inl ⟨‹_›, rfl⟩
  · exact .inr rfl

/-- The question is answered `false` for numbers and minus signs, and it does not tell tokens apart that
may take each other's place. -/
structure Telling (f : TokenKind → Bool) : Prop where
  integer : f .integer = false
  decimal : f .decimal = false
  minus : f (.operator .sub) = false
  leading : ∀ d : DirectiveWord, f (.directive d.leading) = f (.directive d)

theorem Telling.leading_eq {f : TokenKind → Bool} (h : Telling f) (kind : TokenKind) :
    f (Lexeme.leading kind) = f kind := by
  cases kind with
  | directive d => exact h.leading d
  | _ => rfl

/-- The first token can be told from the start. -/
theorem asks_lead {f : TokenKind → Bool} (hf : Telling f)
    (ls : List Lexeme) : ((kind? ls).map f).getD false = (lead ls).asks f := by
  cases ls with
  | nil => rfl
  | cons l ls =>
    rw [kind?_cons, Option.map_some, Option.getD_some]
    by_cases hnum : lead (l :: ls) = .number
    · rw [hnum, Lead.asks]
      rcases lead_eq_number_iff.1 hnum with hm | ⟨kind, hk, hn⟩
      · have := kind?_of_startsMinusNumber hm
        rw [kind?_cons, Option.some.injEq] at this
        rw [this, hf.minus]
      · rw [kind?_cons, Option.some.injEq] at hk
        rw [hk]
        cases kind <;> first | exact hf.integer | exact hf.decimal | exact Bool.noConfusion hn
    · obtain ⟨-, ⟨hident, hlead⟩ | hlead⟩ := lead_of_ne_number hnum
      · rw [hlead, hident, Lead.asks]
      · rw [hlead, Lead.asks, hf.leading_eq]

/-- Of the directives only some may take another's place. -/
theorem telling_beq {kind : TokenKind} (hn : kind.isNumber = false) (hs : kind ≠ .operator .sub)
    (hd : kind.isDirective = false) : Telling (· == kind) where
  integer := by cases kind <;> first | rfl | exact Bool.noConfusion hn
  decimal := by cases kind <;> first | rfl | exact Bool.noConfusion hn
  minus := by simpa using hs.symm
  leading d := by
    have hne : ∀ d, (TokenKind.directive d == kind) = false := by
      intro d
      rw [beq_eq_false_iff_ne]
      rintro rfl
      exact Bool.noConfusion hd
    rw [hne, hne]

theorem telling_unique : Telling (· == .directive .unique) where
  integer := rfl
  decimal := rfl
  minus := rfl
  leading d := by
    cases d with
    | chain f w => cases w <;> rfl
    | _ => rfl

theorem startsParameterName_eq (v : Vocabulary) (ls : List Lexeme) :
    Parser.startsParameterName v ls = (lead ls).isParameterName v := by
  match ls with
  | [] => rfl
  | ⟨kind, text, s⟩ :: ls =>
    by_cases hi : kind = .ident
    · subst hi
      rw [lead_ident]
      simp [Parser.startsParameterName, Lead.isParameterName]
    · have hasks := asks_lead telling_unique (⟨kind, text, s⟩ :: ls)
      have hname : Parser.startsParameterName v (⟨kind, text, s⟩ :: ls) =
          (kind == .directive .unique) := by simp [Parser.startsParameterName, hi]
      rw [kind?_cons, Option.map_some, Option.getD_some] at hasks
      rw [hname, hasks]
      cases hl : lead (⟨kind, text, s⟩ :: ls) with
      | word text' call assigned =>
        rw [lead] at hl
        simp [hi] at hl
        split at hl <;> cases hl
      | _ => rfl

theorem operationOf?_leading (kind : TokenKind) :
    operationOf? false false kind = (Lead.other (leading kind)).operation? := by
  cases kind with
  | directive d =>
    cases d with
    | chain f w => cases w <;> rfl
    | _ => rfl
  | operator op => cases op <;> rfl
  | _ => rfl

/-- A minus that is an operation does not touch a number. -/
theorem operation?_of_ne_number {ls : List Lexeme} (h : lead ls ≠ .number) :
    Lexeme.operation? false ls = (lead ls).operation? := by
  cases ls with
  | nil => rfl
  | cons l ls =>
    obtain ⟨hm, hlead⟩ := lead_of_ne_number h
    rw [Lexeme.operation?, startsDetached, hm, kind?_cons, Option.bind_some, Bool.false_and]
    rcases hlead with ⟨hident, hlead⟩ | hlead
    · rw [hlead, hident]
      rfl
    · rw [hlead, operationOf?_leading]

theorem operation?_of_isSpaced {ls : List Lexeme} (h : IsSpaced ls) :
    Lexeme.operation? false ls = (lead ls).operation? := by
  by_cases hnum : lead ls = .number
  · rw [hnum]
    rcases lead_eq_number_iff.1 hnum with hm | ⟨kind, hk, hn⟩
    · have hs : (ls.head?.map (·.spaced)).getD true = true := by
        cases ls with
        | nil => rfl
        | cons l ls => exact h l rfl
      rw [Lexeme.operation?, startsDetached, hm, hs, kind?_of_startsMinusNumber hm]
      rfl
    · rw [Lexeme.operation?, hk]
      cases kind <;> first | rfl | exact Bool.noConfusion hn
  · exact operation?_of_ne_number hnum

/-- What does not tell a minus from a number is the same at both starts. -/
theorem Alike.congr {β : Type} (h : Alike src out) (g : Lead → β)
    (hg : g (.other (.operator .sub)) = g .number) : g (lead src) = g (lead out) := by
  rcases h with h | ⟨hsrc, hout⟩
  · rw [h]
  · rw [hsrc, lead_minusNumber hout, hg]

theorem Alike.asks {f : TokenKind → Bool} (h : Alike src out) (hf : Telling f) :
    ((kind? src).map f).getD false = ((kind? out).map f).getD false := by
  rw [asks_lead hf, asks_lead hf]
  exact h.congr (Lead.asks f) hf.minus

/-- Most tokens are the same at both starts. -/
theorem Alike.kind?_iff {kind : TokenKind} (h : Alike src out) (hn : kind.isNumber = false)
    (hs : kind ≠ .operator .sub) (hd : kind.isDirective = false) :
    kind? src = some kind ↔ kind? out = some kind := by
  have hask : ∀ ls, ((kind? ls).map (· == kind)).getD false = true ↔ kind? ls = some kind := by
    intro ls
    cases kind? ls <;> simp
  rw [← hask src, ← hask out, h.asks (telling_beq hn hs hd)]

theorem telling_isAssign : Telling TokenKind.isAssign where
  integer := rfl
  decimal := rfl
  minus := rfl
  leading _ := rfl

theorem Alike.startsAssign (h : Alike src out) : startsAssign src = startsAssign out :=
  h.asks telling_isAssign

theorem Alike.startsParameterName (h : Alike src out) (v : Vocabulary) :
    Parser.startsParameterName v src = Parser.startsParameterName v out := by
  rw [startsParameterName_eq, startsParameterName_eq]
  exact h.congr (Lead.isParameterName v) rfl

/-- Nothing is read as a value at either start, unless a minus has come to touch a number. -/
theorem Alike.endsValue (h : Alike src out) (hm : startsMinusNumber out = false)
    (hend : Parser.EndsValue src) : Parser.EndsValue out := by
  have hlead : lead src = lead out := h.resolve_right fun ⟨_, h⟩ => by simp [hm] at h
  have hnumber : lead src ≠ .number := by
    rw [Ne, lead_eq_number_iff]
    rintro (h | ⟨kind, hk, hn⟩)
    · exact Bool.noConfusion (hend.1.symm.trans h)
    · have := hend.2
      rw [hk] at this
      cases kind <;> first | exact Bool.noConfusion this | exact Bool.noConfusion hn
  have hstring : kind? out ≠ some .string := by
    rw [Ne, ← h.kind?_iff rfl (by simp) rfl]
    intro hk
    have := hend.2
    rw [hk] at this
    exact Bool.noConfusion this
  refine ⟨hm, ?_⟩
  rw [hlead, Ne, lead_eq_number_iff] at hnumber
  cases hk : kind? out with
  | none => rfl
  | some kind =>
    have hn : kind.isNumber = false := by
      rw [← Bool.not_eq_true]
      exact fun h => hnumber (.inr ⟨kind, hk, h⟩)
    have hs : kind ≠ .string := by
      rintro rfl
      exact hstring hk
    cases kind <;> first | rfl | exact Bool.noConfusion hn | exact absurd rfl hs

/-! ### What follows -/

/-- What follows an item in the text, and what follows it where it has been written. -/
structure Follows (src out : List Lexeme) : Prop where
  alike : Alike src out
  spaced : IsSpaced out

theorem Follows.endsPlace (h : Follows src out) {v : Vocabulary} {name : Option String} {value : Value}
    (hm : value = .absent → startsMinusNumber out = false)
    (hend : Parser.EndsPlace v name value src) : Parser.EndsPlace v name value out := by
  intro habsent
  obtain ⟨hvalue, hname⟩ := hend habsent
  exact ⟨h.alike.endsValue (hm habsent) hvalue, fun hn => h.alike.startsParameterName v ▸ hname hn⟩

/-- What ends an expression between items. -/
theorem Follows.ends (h : Follows src out) (hstop : Parser.Stops false 1 src) :
    Parser.Ends false 1 out := by
  have hpower : kind? src ≠ some (.operator .pow) := by simpa [startsPower] using hstop.1
  refine ⟨fun _ => ?_, fun op hop => ?_, h.spaced.isLoose⟩
  · have := mt (h.alike.kind?_iff rfl (by simp) rfl).2 hpower
    simpa [startsPower] using this
  · -- the operation would go on in the text too
    rw [operation?_of_isSpaced h.spaced] at hop
    rcases h.alike with hlead | ⟨-, hm⟩
    · have hnum : lead src ≠ .number := by
        intro hnum
        rw [← hlead, hnum] at hop
        cases hop
      refine absurd (hstop.2 op ?_) (Nat.not_lt.2 (Parser.level_bounds op).1)
      rw [operation?_of_ne_number hnum, hlead, hop]
    · rw [lead_minusNumber hm] at hop
      cases hop

end Lexeme

end ControlFile

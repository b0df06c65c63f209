import ControlFile.Proofs.Expansion.Limit
import ControlFile.Proofs.Expr.Value

/-!
# Including a file is the same as reading it

The items of an included file are expanded one level deeper, and what is wrong with them is reported
as being in that file.  Neither is seen by the items: two expansions whose levels left are the same,
and whose limits and sources differ, come to the same, but for the sources of problems and the limit
that they may name (`Matches`).

A text that has a single `#include` in it and nothing else is the same as the text of that file, if
one more level is allowed (`Session.parse_include`).
-/

namespace ControlFile

/-- The fault without the limit that it may name. -/
def Fault.withoutLimit : Fault → Fault
  | .depthExceeded name _ => .depthExceeded name 0
  | fault => fault

theorem Fault.withoutLimit_eq_cancelled {fault : Fault} :
    fault.withoutLimit = .cancelled ↔ fault = .cancelled := by
  cases fault <;> simp [withoutLimit]

/-- The diagnostic without the limit that it may name. -/
def Diagnostic.withoutLimit (d : Diagnostic) : Diagnostic := ⟨d.fault.withoutLimit, d.range⟩

/-- What a problem says, and where, but not of which text; without the limit that it may name. -/
def Problem.unsourced (p : Problem) : Diagnostic := p.diagnostic.withoutLimit

/-- The same tables, problems and comments, but for the sources of the problems. -/
structure Run.Matches (r r' : Run) : Prop where
  tables : r.tables = r'.tables
  problems : r.problems.map Problem.unsourced = r'.problems.map Problem.unsourced
  comments : r.comments = r'.comments

namespace Run.Matches

variable {r r' : Run}

theorem withTables (h : r.Matches r') (t : Tables) :
    Run.Matches { r with tables := t } { r' with tables := t } := ⟨rfl, h.problems, h.comments⟩

theorem reporting (h : r.Matches r') (frame frame' : Frame) {d d' : Diagnostic}
    (hd : d.withoutLimit = d'.withoutLimit) :
    (r.reporting frame d).Matches (r'.reporting frame' d') where
  tables := h.tables
  problems := by simp [Run.reporting, Problem.unsourced, h.problems, hd]
  comments := h.comments

end Run.Matches

namespace Expansion

open Expander (rootExpansion belowAt)

variable {α β : Type}

/-- Both results are the same, and so is what both runs have found. -/
inductive SameEnd : EStateM.Result Diagnostic Run α → EStateM.Result Diagnostic Run α → Prop
  | ok {a : α} {r r' : Run} (h : r.Matches r') : SameEnd (.ok a r) (.ok a r')
  | error {d d' : Diagnostic} {r r' : Run} (hd : d.withoutLimit = d'.withoutLimit)
      (h : r.Matches r') : SameEnd (.error d r) (.error d' r')

/-- From runs that match, both steps end in the same way. -/
def Matches (e e' : Expansion α) : Prop := ∀ r r', r.Matches r' → SameEnd (e r) (e' r')

namespace Matches

theorem onTables (f : Tables → EStateM.Result Diagnostic Tables α) :
    Matches (onTables f) (onTables f) := by
  intro r r' h
  unfold Expansion.onTables
  rw [h.tables]
  cases f r'.tables with
  | ok a t => exact .ok (h.withTables t)
  | error d t => exact .error rfl (h.withTables t)

theorem bind {e e' : Expansion α} {f f' : α → Expansion β} (he : Matches e e')
    (hf : ∀ a, Matches (f a) (f' a)) : Matches (e >>= f) (e' >>= f') := by
  intro r r' h
  have hend := he r r' h
  cases hr : e r with
  | ok a s =>
    rw [hr] at hend
    generalize hr' : e' r' = result' at hend
    cases hend with
    | ok hs =>
      rw [bind_of_ok hr, bind_of_ok hr']
      exact hf a _ _ hs
  | error d s =>
    rw [hr] at hend
    generalize hr' : e' r' = result' at hend
    cases hend with
    | error hd hs =>
      rw [bind_of_error hr, bind_of_error hr']
      exact .error hd hs

theorem reportParsed {config config' : Config} (frame frame' : Frame) (parsed : Parsed)
    (hcomments : config'.options.collectComments = config.options.collectComments) :
    Matches (reportParsed config frame parsed) (reportParsed config' frame' parsed) := by
  intro r r' h
  refine .ok ⟨h.tables, ?_, ?_⟩
  · simp [h.problems, Problem.unsourced]
  · simp only [hcomments, h.comments]

theorem relocating {e e' : Expansion α} (range : Extent) (he : Matches e e') :
    Matches (relocating range e) (relocating range e') := by
  intro r r' h
  unfold Expansion.relocating
  have hend := he r r' h
  generalize e r = result, e' r' = result' at hend
  cases hend with
  | ok hs => exact .ok hs
  | error hd hs =>
    have hfault := congrArg Diagnostic.fault hd
    exact .error (congrArg (Diagnostic.mk · range) hfault) hs

theorem alone {e e' : Expansion (List Item)} (frame frame' : Frame) (he : Matches e e') :
    Matches (alone frame e) (alone frame' e') := by
  intro r r' h
  unfold Expansion.alone
  have hend := he r r' h
  generalize e r = result, e' r' = result' at hend
  cases hend with
  | ok hs => exact .ok hs
  | @error d d' s s' hd hs =>
    have hfault : d.fault.withoutLimit = d'.fault.withoutLimit := congrArg Diagnostic.fault hd
    have hcancelled : d.fault = .cancelled ↔ d'.fault = .cancelled := by
      rw [← Fault.withoutLimit_eq_cancelled, hfault, Fault.withoutLimit_eq_cancelled]
    by_cases hc : d.fault = .cancelled
    · simp only [if_pos hc, if_pos (hcancelled.1 hc)]
      exact .error hd hs
    · simp only [if_neg hc, if_neg (mt hcancelled.2 hc)]
      exact .ok (hs.reporting frame frame' hd)

end Matches

/-- Without a watch, an expansion beside one with another limit, whatever texts the items of the two
come from. -/
def sourceSimulation (config : Config) (limit : Nat) (hwatch : config.watch = .never) :
    Simulation config (config.withLimit limit) where
  Rel := Matches
  Frames _ _ := True
  vocabulary := Config.vocabulary_withLimit limit config
  root := trivial
  inCall _ _ := trivial
  inFile _ _ _ := trivial
  onTables f _ := .onTables f
  bind he hf := he.bind hf
  checkCancelled range := by
    have hwatch' : (config.withLimit limit).watch = .never := hwatch
    rw [checkCancelled_never hwatch, checkCancelled_never hwatch']
    exact fun r r' h => .ok h
  ask path := fun r r' h => .ok ⟨h.tables, h.problems, h.comments⟩
  reportParsed parsed _ := .reportParsed _ _ parsed rfl
  depthExceeded range name := fun r r' h => .error rfl h
  relocating range he := he.relocating range
  alone _ he := he.alone _ _

/-- The items of an included file, with `levels` levels left, and the report on it. -/
def fileExpansion (config : Config) (levels : Nat) (frame : Frame) (parsed : Parsed) :
    Expansion (List Item) := do
  reportParsed config frame parsed
  independently frame (itemAt config levels frame) parsed.items

/-- A file is expanded as if it were the root text, with as many levels as are left. -/
theorem matches_fileExpansion (config : Config) (hwatch : config.watch = .never) (limit : Nat)
    (frame : Frame) (parsed : Parsed) :
    Matches (fileExpansion config limit frame parsed)
      (rootExpansion (config.withLimit limit) parsed) :=
  let S := sourceSimulation config limit hwatch
  S.bind (S.reportParsed parsed trivial) fun _ =>
    S.rel_independently trivial (fun i => S.rel_itemAt limit trivial i) parsed.items

end Expansion

/-! ### The text of an `#include` -/

open Lexer

/-- The tokens of an `#include`. -/
theorem Token.ofText_include {path : String} (hquote : '\x22' ∉ path.toList)
    (hnewline : '\n' ∉ path.toList) :
    Token.ofText ("#include \"" ++ path ++ "\"") =
      [⟨.directive .includeFile, "#include", ⟨0, 8⟩, true⟩, ⟨.blank, " ", ⟨8, 9⟩, false⟩,
        ⟨.string, "\"" ++ path ++ "\"", ⟨9, 9 + byteLength ("\"" ++ path ++ "\"").toList⟩, true⟩] := by
  obtain ⟨q, cs, htext, hfirst⟩ := lexesAs_string hquote hnewline
  obtain rfl : '\x22' = q := by
    simp only [String.toList_append] at htext
    exact (List.cons.inj htext).1
  have hinclude : ("#include \"" ++ path ++ "\"").toList =
      '#' :: ("include ".toList ++ '\x22' :: cs) := by
    have happend : "#include \"" ++ path ++ "\"" = "#include " ++ ("\"" ++ path ++ "\"") := by
      rw [← String.append_assoc, ← String.append_assoc]
      rfl
    rw [happend, String.toList_append, htext]
    rfl
  have hword : first '#' ("include ".toList ++ '\x22' :: cs) = (.directive .includeFile, 7) := rfl
  have hblank : first ' ' ('\x22' :: cs) = (.blank, 0) := rfl
  have hrest : ("include ".toList ++ '\x22' :: cs).drop 7 = ' ' :: '\x22' :: cs := rfl
  have hstring : String.ofList ('\x22' :: cs) = "\"" ++ path ++ "\"" := by
    rw [← htext, String.ofList_toList]
  rw [Token.ofText, hinclude, scan_cons, hword, hrest, scan_cons, hblank, List.drop_zero, scan_cons,
    hfirst, List.take_length, List.drop_length, scan_nil, hstring, htext]
  rfl

/-- What is read from an `#include`. -/
theorem Parsed.ofText_include (v : Vocabulary) {path : String} (hquote : '\x22' ∉ path.toList)
    (hnewline : '\n' ∉ path.toList) :
    Parsed.ofText v ("#include \"" ++ path ++ "\"") =
      ⟨[⟨.directive (.includeFile path), ⟨0, 9 + byteLength ("\"" ++ path ++ "\"").toList⟩⟩],
        [], []⟩ := by
  have hstream : ∀ a b c text, TokenStream.ofTokens [⟨.directive .includeFile, "#include", a, true⟩,
      ⟨.blank, " ", b, false⟩, ⟨.string, text, c, true⟩] =
      ⟨[⟨.directive .includeFile, "#include", a, true⟩, ⟨.string, text, c, true⟩], [], []⟩ :=
    fun _ _ _ _ => rfl
  have hitems : ∀ stop textEnd, Parsed.itemsOf v [⟨.directive .includeFile, "#include", ⟨0, 8⟩, true⟩,
      ⟨.string, "\"" ++ path ++ "\"", ⟨9, stop⟩, true⟩] textEnd =
      ([⟨.directive (.includeFile (unquote ("\"" ++ path ++ "\""))), ⟨0, stop⟩⟩], []) :=
    fun _ _ => rfl
  rw [Literal.unquote_quoted] at hitems
  unfold Parsed.ofText TokenStream.ofText
  rw [Token.ofText_include hquote hnewline, hstream]
  dsimp only
  rw [hitems]
  simp [Diagnostic.sortByStart]

open Expander (rootExpansion documentOf askedRun expand_includeFile_of_some)

/-- The items of a text that is a single `#include` are those of the file. -/
theorem Expansion.rootExpansion_include {config : Config} (hwatch : config.watch = .never)
    {levels : Nat} (hlimit : config.options.maxDepth = levels + 1) {path text : String}
    (hresolve : config.resolver path = some text) {range : Extent} {items : List Item} {r : Run}
    (hrun : fileExpansion config levels (Frame.root.inFile path range)
      (Parsed.ofText config.vocabulary text) ⟨.empty, [path], [], []⟩ = .ok items r) :
    rootExpansion config ⟨[⟨.directive (.includeFile path), range⟩], [], []⟩ ⟨.empty, [], [], []⟩ =
      .ok items r := by
  let i : Item := ⟨.directive (.includeFile path), range⟩
  have hreport : reportParsed config .root ⟨[i], [], []⟩ ⟨.empty, [], [], []⟩ =
      .ok () ⟨.empty, [], [], []⟩ := by
    change EStateM.Result.ok () _ = _
    cases config.options.collectComments <;> rfl
  have hinclude : includeFile ⟨config, some (itemAt config levels), .root, range⟩ path
      ⟨.empty, [], [], []⟩ = .ok items r := by
    have hitems : independently (Frame.root.inFile path range)
        (itemAt config levels (Frame.root.inFile path range))
        (Parsed.ofText config.vocabulary text).items
        (askedRun config .root range path text ⟨.empty, [], [], []⟩) = .ok items r := hrun
    rw [expand_includeFile_of_some hresolve]
    unfold relocating
    rw [hitems]
  have hitem : itemAt config config.options.maxDepth .root i ⟨.empty, [], [], []⟩ = .ok items r := by
    rw [hlimit]
    change expandItem config (some (itemAt config levels)) .root i _ = _
    rw [expandItem, bind_of_ok (checkCancelled_eq hwatch range _), expandKind, expandDirective]
    exact hinclude
  have halone : alone .root (itemAt config config.options.maxDepth .root i) ⟨.empty, [], [], []⟩ =
      .ok items r := by
    unfold alone
    rw [hitem]
  unfold rootExpansion
  rw [bind_of_ok hreport, independently_cons, bind_of_ok halone]
  change EStateM.Result.ok (items ++ []) r = _
  rw [List.append_nil]

/-- **Including a file is the same as reading it.**  Let a path have the text of a file.  Then the text
that includes it, expanded with one more level, gives the same items, comments and tables as the text
of the file does, and the same problems in the same order at the same places; only the sources of the
problems differ, and the limit that they name. -/
theorem Session.parse_include (s : Session) (path text : String) (hwatch : s.watch = none)
    (hquote : '\x22' ∉ path.toList) (hnewline : '\n' ∉ path.toList)
    (hresolve : s.resolver path = some text) :
    let including := (s.withLimit (s.options.maxDepth + 1)).parse ("#include \"" ++ path ++ "\"")
    let read := s.parse text
    including.items = read.items ∧ including.comments = read.comments ∧
      including.tables = read.tables ∧
      including.problems.map Problem.unsourced = read.problems.map Problem.unsourced := by
  let config := (s.withLimit (s.options.maxDepth + 1)).config
  let parsed := Parsed.ofText s.vocabulary text
  let range : Extent := ⟨0, 9 + byteLength ("\"" ++ path ++ "\"").toList⟩
  let frame := Frame.root.inFile path range
  have hnever : s.config.watch = .never := by
    rw [Session.config, hwatch]
    rfl
  obtain ⟨items, r', hread⟩ := Expansion.rootExpansion_ok hnever parsed ⟨.empty, [], [], []⟩
  have hend := Expansion.matches_fileExpansion config hnever s.options.maxDepth frame parsed
    ⟨.empty, [path], [], []⟩ ⟨.empty, [], [], []⟩ ⟨rfl, rfl, rfl⟩
  rw [show config.withLimit s.options.maxDepth = s.config from rfl, hread] at hend
  generalize hrun : Expansion.fileExpansion config s.options.maxDepth frame parsed
    ⟨.empty, [path], [], []⟩ = result at hend
  cases hend with
  | @ok _ r _ h =>
    have hwatched : config.watch = .never := hnever
    have hresolved : config.resolver path = some text := hresolve
    have hincluded := Expansion.rootExpansion_include hwatched rfl hresolved hrun
    have hdocument : (s.withLimit (s.options.maxDepth + 1)).parse ("#include \"" ++ path ++ "\"") =
        ⟨items, r.problems, r.comments, r.tables⟩ := by
      unfold Session.parse Document.ofText
      rw [Parsed.ofText_include _ hquote hnewline]
      exact congrArg documentOf hincluded
    have hfile : s.parse text = ⟨items, r'.problems, r'.comments, r'.tables⟩ :=
      congrArg documentOf hread
    simp only [hdocument, hfile]
    exact ⟨trivial, h.comments, h.tables, h.problems⟩

/-- A macro is called too deeply in the file, whichever way it is read; the problem is the same but for
the limit and its source. -/
theorem Session.parse_include_deep :
    let text := "/**/ macro foo \x7b = 1; \x7d macro bar \x7b foo \x7d foo bar"
    let s := (Session.standard.withLimit 1).withResolver (.ofFiles [("f", text)])
    let including := (s.withLimit (s.options.maxDepth + 1)).parse ("#include \"" ++ "f" ++ "\"")
    let read := s.parse text
    s.watch = none ∧ '\x22' ∉ "f".toList ∧ '\n' ∉ "f".toList ∧ s.resolver "f" = some text ∧
      (read.items.length, read.comments.length) = (3, 1) ∧
      read.problems.map (·.diagnostic.fault) = [.depthExceeded "foo" 1] ∧
      including.problems.map (·.diagnostic.fault) = [.depthExceeded "foo" 2] ∧
      including.items = read.items ∧ including.comments = read.comments ∧
      including.tables = read.tables ∧
      including.problems.map Problem.unsourced = read.problems.map Problem.unsourced := by
  intro text s including read
  exact ⟨rfl, by decide, by decide, rfl, by decide +kernel, by decide +kernel, by decide +kernel,
    Session.parse_include s "f" text rfl (by decide) (by decide) rfl⟩

end ControlFile

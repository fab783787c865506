import BlockScript.Table
import BlockScript.Text.Blank
import BlockScript.Token.Scanner

/-!
# Macros

A macro is a name that stands for a list of tokens. Directives define macros and choose regions of
the source by whether a macro is defined; every other use of the name is replaced. Replaced tokens
take the place of the name they replace, and are not replaced again.
-/

namespace BlockScript

/-- A name that stands for a list of tokens. -/
structure Macro where
  /-- The name. -/
  name : String
  /-- The tokens that replace it. -/
  replacement : List Token
  /-- Where it is defined; macros from the configuration have no place. -/
  definedAt : Option Span

/-- The macros that are defined, in the order of their first definition. -/
abbrev Macros := Table String Macro

/-- The macro that a specification `NAME` or `NAME=VALUE` defines. -/
def Macro.ofSpecification (specification : String) : Except Diagnostic Macro :=
  let chars := specification.toList
  let name := String.ofList (Text.trim (chars.takeWhile (· != '=')))
  match scanText (String.ofList ((chars.dropWhile (· != '=')).drop 1)) with
  | .error fault => .error fault
  | .ok tokens => .ok ⟨name, tokens.filter (!·.isBreak), none⟩

/-- The macros that specifications define, up to the first that cannot be scanned. -/
def Macros.predefined (specifications : List String) : Except Diagnostic Macros :=
  go .empty specifications
where
  /-- Adds the macros of the remaining specifications. -/
  go (macros : Macros) : List String → Except Diagnostic Macros
    | [] => .ok macros
    | specification :: rest =>
      match Macro.ofSpecification specification with
      | .error fault => .error fault
      | .ok definition => go (macros.insert definition.name definition) rest

/-- The tokens before the next end of a line or of the input. -/
def lineTokens (tokens : List Token) : List Token := tokens.takeWhile (!·.isBreak)

/-- The tokens after the current line. The end of the input is not passed. -/
def afterLine (tokens : List Token) : List Token :=
  match tokens.dropWhile (!·.isBreak) with
  | [] => []
  | t :: rest => if t.isNewline then rest else t :: rest

/-- Passes the tokens of a region up to and with the line that ends it. The result says whether
there is such a line; without one, the end of the input is not passed. -/
def skipRegion : List Token → Bool × List Token
  | [] => (false, [])
  | t :: rest =>
    if t.kind = .directive "endif" then (true, afterLine rest)
    else if t.isEof then (false, t :: rest)
    else skipRegion rest

/-- The effect of a directive: the macros after it, what is wrong with it, and the tokens that are
left. -/
structure DirectiveEffect where
  /-- The macros after it. -/
  macros : Macros
  /-- What is wrong with it. -/
  diagnostics : List Diagnostic
  /-- The tokens that are left. -/
  rest : List Token

/-- A macro name at the start of some tokens. -/
def macroName? : List Token → Option (String × Span)
  | t :: _ => match t.kind with
    | .name name => some (name, t.span)
    | _ => none
  | [] => none

/-- The warning that a macro is defined again. -/
def redefinition (macros : Macros) (name : String) (span : Span) : List Diagnostic :=
  match macros.get? name with
  | none => []
  | some old =>
    let fault := .redefined name (old.definedAt.map (·.start.line))
    [{ Diagnostic.directive fault span with severity := .warning }]

/-- Carries out a directive: `t` is its token, and `rest` are the tokens after it. -/
def Macros.direct (macros : Macros) (name : String) (t : Token) (rest : List Token) :
    DirectiveEffect :=
  let named (use : String → Span → List Token → DirectiveEffect) : DirectiveEffect :=
    match macroName? rest with
    | some (target, span) => use target (t.span.merge span) (rest.drop 1)
    | none => ⟨macros, [.directive (.missingName name) t.span], afterLine rest⟩
  let conditional (wanted : Bool) : DirectiveEffect :=
    named fun target _ rest =>
      if macros.contains target == wanted then ⟨macros, [], afterLine rest⟩
      else match skipRegion (afterLine rest) with
        | (true, rest) => ⟨macros, [], rest⟩
        | (false, rest) => ⟨macros, [.directive (.missingEnd t.lexeme) t.span], rest⟩
  match name with
  | "define" =>
    named fun target span rest =>
      ⟨macros.insert target ⟨target, lineTokens rest, some span⟩, redefinition macros target span,
        afterLine rest⟩
  | "undef" => named fun target _ rest => ⟨macros.erase target, [], afterLine rest⟩
  | "ifdef" => conditional true
  | "ifndef" => conditional false
  | "endif" => ⟨macros, [], afterLine rest⟩
  | _ => ⟨macros, [.directive (.unknown name) t.span], afterLine rest⟩

/-- The tokens that stand for a token: the replacement of a macro, at the place of its use, or the
token itself. -/
def Macros.expandToken (macros : Macros) (t : Token) : List Token :=
  match t.kind with
  | .name name =>
    match macros.get? name with
    | some definition => definition.replacement.map fun r =>
        { r with span := t.span, indent := t.indent, path := t.path }
    | none => [t]
  | _ => [t]

/-- The result of carrying out directives and replacing macros. -/
structure Expansion where
  /-- The tokens. -/
  tokens : List Token
  /-- The macros that are defined at the end. -/
  macros : Macros
  /-- What is wrong with the directives. -/
  diagnostics : List Diagnostic

/-- Carries out directives and replaces macros in at most as many steps as the first argument says;
every step passes a token. -/
def Macros.expandSteps : Nat → Macros → List Token → Expansion
  | steps + 1, macros, t :: rest =>
    match t.kind with
    | .directive name =>
      let effect := macros.direct name t rest
      let more := expandSteps steps effect.macros effect.rest
      { more with diagnostics := effect.diagnostics ++ more.diagnostics }
    | _ =>
      let more := expandSteps steps macros rest
      { more with tokens := macros.expandToken t ++ more.tokens }
  | _, macros, _ => ⟨[], macros, []⟩

/-- Carries out the directives of a token list and replaces its macros. -/
def Macros.expand (macros : Macros) (tokens : List Token) : Expansion :=
  macros.expandSteps tokens.length tokens

end BlockScript

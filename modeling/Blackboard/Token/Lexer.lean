import Blackboard.Token.Lexeme
import Blackboard.Token.Terminal
import Blackboard.Source.Span

/-!
Tokens and the lexer. At each place the kinds of lexeme are tried in a fixed order and the first
that fits is taken; blanks and comments are passed over.
-/
namespace Blackboard

open Source

structure Token where
  terminal : Terminal
  text : String
  span : Span
deriving DecidableEq, Repr

namespace Token

/-- What stands at the front of a text: a token or something to pass over. -/
inductive Kind where
  | token (t : Terminal)
  | skipped
deriving DecidableEq, Repr

def wordTerminal (l : Language) (text : List Char) : Terminal :=
  (l.keywords.find? fun t => t.spelling.toList == text).getD .name

def mark? (l : Language) (cs : List Char) : Option (Terminal × Lexeme.Cut) :=
  l.marks.findSome? fun t => (Lexeme.word? t.spelling.toList cs).map fun cut => (t, cut)

def nameOrKeyword? (l : Language) (cs : List Char) : Option (Kind × Lexeme.Cut) :=
  (Lexeme.name? cs).map fun cut => (.token (wordTerminal l cut.1), cut)

def passedOver? (cs : List Char) : Option (Kind × Lexeme.Cut) :=
  (Lexeme.blockComment? cs <|> Lexeme.space? cs <|> Lexeme.lineComment? cs).map fun cut =>
    (.skipped, cut)

def literal? (t : Terminal) (cut : Option Lexeme.Cut) : Option (Kind × Lexeme.Cut) :=
  cut.map fun c => (.token t, c)

def next? (l : Language) (cs : List Char) : Option (Kind × Lexeme.Cut) :=
  let marks := (mark? l cs).map fun (t, cut) => (Kind.token t, cut)
  match l with
  | .java =>
    literal? .number (Lexeme.number? l cs) <|> nameOrKeyword? l cs <|>
      literal? .character (Lexeme.quoted? '\'' false cs) <|>
      literal? .string (Lexeme.quoted? '"' false cs) <|> passedOver? cs <|> marks
  | .typescript =>
    literal? .number (Lexeme.number? l cs) <|>
      literal? .string (Lexeme.quoted? '"' false cs <|> Lexeme.quoted? '\'' false cs) <|>
      nameOrKeyword? l cs <|> literal? .template (Lexeme.quoted? '`' true cs) <|>
      passedOver? cs <|> marks

structure Stray where
  position : Position
  char : Char
deriving DecidableEq, Repr

/-- The tokens from a place on, up to the end of the text or to the first stray character. Every
lexeme takes a character, so `fuel` need not exceed the length of the text. -/
def lexFrom (l : Language) : (fuel : Nat) → Position → List Char → List Token × Option Stray
  | 0, _, _ => ([], none)
  | _ + 1, _, [] => ([], none)
  | fuel + 1, p, c :: cs =>
    match next? l (c :: cs) with
    | none => ([], some ⟨p, c⟩)
    | some (kind, run, rest) =>
      let q := p.afterAll run
      let (tokens, stray) := lexFrom l fuel q rest
      match kind with
      | .skipped => (tokens, stray)
      | .token t =>
        (⟨t, String.ofList run, p.line, p.column, q.line, q.column⟩ :: tokens, stray)

def lex (l : Language) (cs : List Char) : List Token × Option Stray :=
  lexFrom l cs.length .start cs

end Token

end Blackboard

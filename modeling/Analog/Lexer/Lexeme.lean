import Analog.Lexer.Basic
import Analog.Lexer.Pattern
import Analog.Source.Text
import Analog.Value.Literal

/-!
The words of the language. Blanks and comments are skipped, longer operators come before their
beginnings, and the end of the text is a word of its own.
-/
namespace Analog

inductive Kind where
  | finish
  | number
  | string
  | identifier
  | leftParen
  | rightParen
  | comma
  | semicolon
  | colon
  | question
  | contribute
  | assign
  | plus
  | minus
  | times
  | divide
  | modulo
  | power
  | equal
  | notEqual
  | less
  | lessEqual
  | greater
  | greaterEqual
  | both
  | either
  | bang
  | leftSquare
  | rightSquare
  deriving DecidableEq, Repr

structure Lexeme where
  kind : Kind
  text : String
  span : Span
  deriving DecidableEq, Repr

namespace Lexeme

def isDigitLike (c : Char) : Bool := c == '_' || ('0' ≤ c && c ≤ '9')

def digitsLength (cs : List Char) : Nat := (cs.takeWhile isDigitLike).length

def identifierStart : Pattern :=
  .oneOf [.unit ['_'], .unit ['$'], .within 'a' 'z', .within 'A' 'Z']

def identifierRest : Pattern :=
  .oneOf [.unit ['_'], .unit ['$'], .within '0' '9', .within 'a' 'z', .within 'A' 'Z']

def fractionLength : List Char → Nat
  | '.' :: cs =>
    match digitsLength cs with
    | 0 => 0
    | n + 1 => n + 2
  | _ => 0

def signLength : List Char → Nat
  | c :: _ => if c == '+' || c == '-' then 1 else 0
  | [] => 0

def exponentLength : List Char → Nat
  | c :: cs =>
    if c == 'e' || c == 'E' then
      let sign := signLength cs
      match digitsLength (cs.drop sign) with
      | 0 => 0
      | n + 1 => n + 2 + sign
    else 0
  | [] => 0

def scaleLength : List Char → Nat
  | c :: cs => if Value.isScaleLetter c && identifierRest.scan (cs.take 1) == 0 then 1 else 0
  | [] => 0

def scanNumber (cs : List Char) : Nat :=
  match digitsLength cs with
  | 0 => 0
  | whole + 1 =>
    let n := whole + 1 + fractionLength (cs.drop (whole + 1))
    match exponentLength (cs.drop n) with
    | 0 => n + scaleLength (cs.drop n)
    | e + 1 => n + e + 1

def closingQuote? : List Char → Option Nat
  | [] => none
  | '"' :: _ => some 1
  | '\\' :: [] => none
  | '\\' :: _ :: cs => (closingQuote? cs).map (· + 2)
  | _ :: cs => (closingQuote? cs).map (· + 1)

def scanString : List Char → Nat
  | '"' :: cs =>
    match closingQuote? cs with
    | some n => n + 1
    | none => 0
  | _ => 0

def skip (p : Pattern) : Rule Char Kind := ⟨p.scan, none⟩

def rule (p : Pattern) (kind : Kind) : Rule Char Kind := ⟨p.scan, some kind⟩

def sign (text : String) (kind : Kind) : Rule Char Kind := rule (.unit text.toList) kind

def rules : List (Rule Char Kind) := [
  skip (.sequence [.bytes ['/', '/'], .upTo '\n']),
  skip (.between ['/', '*'] ['*', '/']),
  sign "(" .leftParen,
  sign ")" .rightParen,
  sign "[" .leftSquare,
  sign "]" .rightSquare,
  sign "," .comma,
  sign ";" .semicolon,
  sign ":" .colon,
  sign "?" .question,
  sign "<+" .contribute,
  sign "<=" .lessEqual,
  sign "<" .less,
  sign ">=" .greaterEqual,
  sign ">" .greater,
  sign "==" .equal,
  sign "=" .assign,
  sign "!=" .notEqual,
  sign "!" .bang,
  sign "&&" .both,
  sign "||" .either,
  sign "+" .plus,
  sign "-" .minus,
  sign "**" .power,
  sign "*" .times,
  sign "/" .divide,
  sign "%" .modulo,
  skip (.many (.oneOf [.unit [' '], .unit ['\t'], .unit ['\n'], .unit ['\r']])),
  ⟨scanNumber, some .number⟩,
  ⟨scanString, some .string⟩,
  rule (.leading identifierStart identifierRest) .identifier,
  rule .finish .finish]

def textOf (contents : List Char) (span : Span) : String :=
  String.ofList ((contents.drop span.start).take span.length)

def ofText (s : SourceText) : Except Diagnostic (List Lexeme) :=
  let lexed := Lexer.collect rules s.contents
  if lexed.remaining == 0 then
    .ok (lexed.tokens.map fun (kind, span) => ⟨kind, textOf s.contents span, span⟩)
  else .error ⟨lexed.unmatched, "unknown text encountered"⟩

end Lexeme
end Analog

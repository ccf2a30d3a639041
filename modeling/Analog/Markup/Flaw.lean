/-!
What can be wrong with a settings text. A flaw in the letters or in the grammar knows the line where
the construct starts and the line where it went wrong; the first of the two that is not the first
line of the text is named. Lines count from zero here.
-/
namespace Analog.Markup

inductive Misspelling where
  | startOfToken
  | keyWithoutValue
  | valueOutOfPlace
  | keyOutOfPlace
  | entryOutOfPlace
  | directiveName
  | directiveLetter
  | unknownDirective
  | directiveEnd
  | versionSeparator
  | versionNumber
  | longVersion
  | tagSpace
  | tagEnd
  | tagMark
  | tagName
  | tagBracket
  | tagEscape
  | leadingOctet
  | trailingOctet
  | anchorName
  | zeroIndentation
  | blockHeader
  | tabInBlock
  | tabInPlain
  | documentInQuotes
  | endInQuotes
  | unknownEscape
  | hexDigit
  | characterCode
  deriving DecidableEq, Repr

def Misspelling.text : Misspelling → String
  | startOfToken => "found character that cannot start any token"
  | keyWithoutValue => "could not find expected ':'"
  | valueOutOfPlace => "mapping values are not allowed in this context"
  | keyOutOfPlace => "mapping keys are not allowed in this context"
  | entryOutOfPlace => "block sequence entries are not allowed in this context"
  | directiveName => "could not find expected directive name"
  | directiveLetter => "found unexpected non-alphabetical character"
  | unknownDirective => "found unknown directive name"
  | directiveEnd => "did not find expected comment or line break"
  | versionSeparator => "did not find expected digit or '.' character"
  | versionNumber => "did not find expected version number"
  | longVersion => "found extremely long version number"
  | tagSpace => "did not find expected whitespace"
  | tagEnd => "did not find expected whitespace or line break"
  | tagMark => "did not find expected '!'"
  | tagName => "did not find expected tag URI"
  | tagBracket => "did not find the expected '>'"
  | tagEscape => "did not find URI escaped octet"
  | leadingOctet => "found an incorrect leading UTF-8 octet"
  | trailingOctet => "found an incorrect trailing UTF-8 octet"
  | anchorName => "did not find expected alphabetic or numeric character"
  | zeroIndentation => "found an indentation indicator equal to 0"
  | blockHeader => "did not find expected comment or line break"
  | tabInBlock => "found a tab character where an indentation space is expected"
  | tabInPlain => "found a tab character that violates indentation"
  | documentInQuotes => "found unexpected document indicator"
  | endInQuotes => "found unexpected end of stream"
  | unknownEscape => "found unknown escape character"
  | hexDigit => "did not find expected hexdecimal number"
  | characterCode => "found invalid Unicode character escape code"

inductive Misplacement where
  | key
  | blockEntry
  | sequenceEnd
  | mappingEnd
  | content
  | documentStart
  | tagHandle
  | secondVersion
  | version
  | secondTagHandle
  deriving DecidableEq, Repr

def Misplacement.text : Misplacement → String
  | key => "did not find expected key"
  | blockEntry => "did not find expected '-' indicator"
  | sequenceEnd => "did not find expected ',' or ']'"
  | mappingEnd => "did not find expected ',' or '\x7d'"
  | content => "did not find expected node content"
  | documentStart => "did not find expected <document start>"
  | tagHandle => "found undefined tag handle"
  | secondVersion => "found duplicate %YAML directive"
  | version => "found incompatible YAML document"
  | secondTagHandle => "found duplicate %TAG directive"

inductive Flaw where
  | controlCharacter
  | letters (cause : Misspelling) (start reached : Nat)
  | grammar (cause : Misplacement) (start reached : Nat)
  | unknownAnchor (name : String)
  deriving DecidableEq, Repr

namespace Flaw

def place (start reached shift : Nat) : String :=
  let line := if start == 0 then reached else start
  if line == 0 then "" else "line " ++ toString (line + shift) ++ ": "

def message : Flaw → String
  | controlCharacter => "control characters are not allowed"
  | letters cause start reached => place start reached 1 ++ cause.text
  | grammar cause start reached => place start reached 0 ++ cause.text
  | unknownAnchor name => "unknown anchor '" ++ name ++ "' referenced"

end Flaw
end Analog.Markup

import ArkLang.Text.Position
import ArkLang.Text.Printable
import ArkLang.Number.Shortest

/-!
# Tokens

A program text is read as a sequence of tokens: keywords, symbols, names and literals, closed by a
token for the end of input. Line breaks are not tokens, but each token remembers whether one stands
before it, because a line break can end a statement.
-/

namespace ArkLang

/-- The reserved words. -/
inductive Keyword where
  | modKw | whileKw | breakKw | skipKw | returnKw | trueKw | falseKw
  deriving DecidableEq, Repr

namespace Keyword

/-- All reserved words. -/
def all : List Keyword :=
  [modKw, whileKw, breakKw, skipKw, returnKw, trueKw, falseKw]

/-- The spelling of a reserved word. -/
def text : Keyword → String
  | modKw => "Mod"
  | whileKw => "while"
  | breakKw => "break"
  | skipKw => "skip"
  | returnKw => "return"
  | trueKw => "true"
  | falseKw => "false"

/-- The reserved word with a spelling. -/
def ofText? (word : String) : Option Keyword :=
  all.find? (·.text == word)

end Keyword

/-- The operators and punctuation signs. -/
inductive Symbol where
  | colonColonEq | colonEq | colonColon | plusPlus | minusMinus | eqEq | bangEq | le | ge
  | andAnd | orOr | shl | shr | chain | dotDot | arrow
  | colon | eq | plus | minus | star | slash | percent | lt | gt | amp | bar | caret | bang | tilde
  | dot | comma | semi | lparen | rparen | lbrace | rbrace | lbracket | rbracket
  deriving DecidableEq, Repr

namespace Symbol

/-- All signs, the longer ones first. -/
def all : List Symbol :=
  [colonColonEq,
   colonEq, colonColon, plusPlus, minusMinus, eqEq, bangEq, le, ge, andAnd, orOr, shl, shr, chain,
   dotDot, arrow,
   colon, eq, plus, minus, star, slash, percent, lt, gt, amp, bar, caret, bang, tilde, dot, comma,
   semi, lparen, rparen, lbrace, rbrace, lbracket, rbracket]

def chars : Symbol → List Char
  | colonColonEq => [':', ':', '=']
  | colonEq => [':', '=']
  | colonColon => [':', ':']
  | plusPlus => ['+', '+']
  | minusMinus => ['-', '-']
  | eqEq => ['=', '=']
  | bangEq => ['!', '=']
  | le => ['<', '=']
  | ge => ['>', '=']
  | andAnd => ['&', '&']
  | orOr => ['|', '|']
  | shl => ['<', '<']
  | shr => ['>', '>']
  | chain => ['|', '>']
  | dotDot => ['.', '.']
  | arrow => ['-', '>']
  | colon => [':']
  | eq => ['=']
  | plus => ['+']
  | minus => ['-']
  | star => ['*']
  | slash => ['/']
  | percent => ['%']
  | lt => ['<']
  | gt => ['>']
  | amp => ['&']
  | bar => ['|']
  | caret => ['^']
  | bang => ['!']
  | tilde => ['~']
  | dot => ['.']
  | comma => [',']
  | semi => [';']
  | lparen => ['(']
  | rparen => [')']
  | lbrace => ['{']
  | rbrace => ['}']
  | lbracket => ['[']
  | rbracket => [']']

/-- The spelling of a sign. -/
def text (s : Symbol) : String :=
  String.ofList s.chars

end Symbol

/-- What a token is. Literals carry their value. -/
inductive TokenKind where
  | keyword (word : Keyword)
  | symbol (sign : Symbol)
  | ident (name : String)
  | int (value : Nat)
  | float (value : Binary64)
  | str (value : String)
  | eof
  deriving DecidableEq, Repr

/-- How a message names a token. -/
def TokenKind.describe : TokenKind → String
  | .keyword word => "`" ++ word.text ++ "`"
  | .symbol sign => "`" ++ sign.text ++ "`"
  | .ident name => "identifier `" ++ name ++ "`"
  | .int value => "integer `" ++ toString value ++ "`"
  | .float value => "float `" ++ value.positionalText ++ "`"
  | .str _ => "string literal"
  | .eof => "end of input"

/-- A token and its place. -/
structure Token where
  kind : TokenKind
  span : Span
  position : Position
  /-- Whether a line break stands between this token and what is before it. -/
  newlineBefore : Bool
  deriving DecidableEq, Repr

/-- What can be wrong with a lexeme. -/
inductive LexFault where
  | unexpectedChar (c : Char)
  | unterminatedComment
  | unterminatedString
  | unknownEscape
  | intOutOfRange (lexeme : String)
  | floatOutOfRange (lexeme : String)
  | malformedNumber (lexeme : String)
  deriving DecidableEq, Repr

namespace LexFault

/-- The class under which a fault is reported. -/
def kindName : LexFault → String
  | unterminatedString => "UnterminatedString"
  | unexpectedChar _ | unterminatedComment | unknownEscape => "InvalidChar"
  | intOutOfRange _ | floatOutOfRange _ | malformedNumber _ => "MalformedNumber"

def message : LexFault → String
  | unexpectedChar c => "unexpected character `" ++ quotedChar c ++ "`"
  | unterminatedComment => "unterminated block comment"
  | unterminatedString => "unterminated string literal"
  | unknownEscape => "unknown escape sequence in string literal"
  | intOutOfRange lexeme => "integer literal `" ++ lexeme ++ "` is out of range"
  | floatOutOfRange lexeme => "float literal `" ++ lexeme ++ "` is out of range"
  | malformedNumber lexeme => "malformed number `" ++ lexeme ++ "`"

end LexFault

/-- A faulty lexeme and its place. -/
structure LexError where
  fault : LexFault
  span : Span
  position : Position
  deriving DecidableEq, Repr

end ArkLang

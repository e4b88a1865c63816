import BraceLang.Token

/-!
# Which tokens may follow which

A coarse table of the kinds that may come after a kind. It rejects nothing by itself: a pair outside the table is only
recorded with its place.
-/

namespace BraceLang

namespace TokenKind

def followClass : TokenKind → TokenKind
  | string | fstring | rstring | frstring | regex => string
  | starAssign | slashAssign | percentAssign | doubleStarAssign | doubleSlashAssign | plusAssign | minusAssign => assign
  | trueKw | falseKw => boolean
  | k => k

/-- The table: which kinds may come next, by rule.  A kind without a rule has no followers. -/
def followTable : TokenKind → List TokenKind
  | .identifier =>
    [semicolon, star, slash, percent, doubleStar, doubleSlash, plus, minus, less, greater, lessEqual, greaterEqual,
      equal, notEqual, assign, plusAssign, minusAssign, starAssign, slashAssign, percentAssign, doubleStarAssign,
      doubleSlashAssign, andKw, orKw, inKw, rparen, lparen, colon, dot, comma, lbrace, rbracket, extendsKw,
      implementsKw, lbracket, isKw, notKw, ifKw, forKw, importKw, rbrace]
  | .string => [semicolon, rparen, comma, lbrace, rbracket, rbrace, colon, inKw]
  | .number =>
    [semicolon, star, slash, percent, doubleStar, doubleSlash, plus, minus, less, greater, lessEqual, greaterEqual,
      equal, notEqual, andKw, orKw, inKw, rparen, comma, rbracket, lbrace, forKw, ifKw, elseKw, rbrace, colon]
  | .colon => [identifier, noneKw, rbracket, string, number, trueKw, falseKw, lbracket, lbrace]
  | .semicolon => [defKw, passKw, returnKw, ifKw, forKw, whileKw, switchKw, identifier, rbrace, newline, comment, eof]
  | .newline =>
    [abstractKw, classKw, defKw, finalKw, interfaceKw, identifier, passKw, returnKw, ifKw, forKw, whileKw, switchKw,
      rbrace, comment, eof, newline, staticKw, raiseKw, importKw, string, rparen, fromKw, enumKw, dataKw]
  | .noneKw => [colon, lbrace, semicolon]
  | .implementsKw | .extendsKw | .interfaceKw | .classKw | .dot
  | .defKw | .raiseKw | .importKw | .forKw | .fromKw | .enumKw => [identifier]
  | .abstractKw => [classKw, defKw]
  | .staticKw => [identifier, defKw]
  | .finalKw => [classKw, identifier, defKw]
  | .comma =>
    [identifier, number, string, fstring, rstring, frstring, regex, trueKw, falseKw, lbracket, lparen, minus, plus,
      noneKw]
  | .assign =>
    [identifier, number, string, fstring, rstring, frstring, regex, lparen, lbracket, lbrace, trueKw, falseKw, noneKw]
  | .star => [identifier, number, string, fstring, rstring]
  | .slash => [identifier, number, string, fstring, rstring, lparen]
  | .percent | .doubleStar | .doubleSlash | .minus => [identifier, number, string]
  | .plus => [identifier, number, string, fstring, rstring, frstring, regex, lparen, lbracket, lbrace]
  | .arrow => [noneKw, identifier, string, lbracket]
  | .returnKw => [identifier, number, string, fstring, rstring, semicolon, lparen, notKw, trueKw, falseKw, lbrace]
  | .ifKw | .elifKw => [identifier, number, string, fstring, rstring, lparen, notKw]
  | .elseKw => [lbrace, colon, number, identifier, string]
  | .inKw => [identifier, number, string, fstring, rstring, lparen, lbracket]
  | .isKw => [noneKw, identifier, notKw]
  | .andKw | .orKw => [identifier, number, string, trueKw, falseKw, lparen, notKw]
  | .notKw => [identifier, number, string, fstring, rstring, lparen, inKw]
  | .lbracket => [identifier, number, string, fstring, rstring, frstring, minus, lparen, lbracket, rbracket]
  | .rbracket =>
    [colon, comma, semicolon, rbrace, rparen, plus, minus, star, slash, percent, doubleStar, doubleSlash, less, greater,
      lessEqual, greaterEqual, equal, notEqual, andKw, orKw, inKw, dot, rbracket, lbrace]
  | .lparen => [identifier, number, string, fstring, rstring, trueKw, falseKw, noneKw, lparen, minus, rparen]
  | .rparen =>
    [colon, lbrace, comma, semicolon, newline, arrow, plus, minus, star, slash, percent, doubleStar, doubleSlash, less,
      greater, lessEqual, greaterEqual, equal, notEqual, andKw, orKw, rbrace, inKw, dot, rparen]
  | .lbrace =>
    [defKw, passKw, returnKw, ifKw, forKw, whileKw, switchKw, identifier, rbrace, newline, comment, string, number]
  | .rbrace => [elseKw, eof, newline, semicolon, rbrace, caseKw, defaultKw, elifKw]
  | .boolean => [semicolon, rparen, comma, rbracket]
  | .passKw => [semicolon]
  | .less | .greater | .lessEqual | .greaterEqual | .equal | .notEqual =>
    [identifier, number, string, fstring, rstring, frstring, lparen, lbracket, lbrace, trueKw, falseKw, noneKw, minus]
  | .dataKw => [classKw]
  | _ => []

def followers (k : TokenKind) : List TokenKind := followTable k.followClass

def mayFollow (k next : TokenKind) : Bool := next ∈ k.followers

end TokenKind

/-- A pair of neighbours outside the table, with the place where the second was read. -/
structure FollowIssue where
  token : TokenKind
  next : TokenKind
  line : Int
  column : Int
  deriving DecidableEq, Repr

def followIssue? (token next : TokenKind) (line column : Int) : Option FollowIssue :=
  if token.mayFollow next then none else some ⟨token, next, line, column⟩

def FollowIssue.message (i : FollowIssue) : String :=
  "Illegal follow: TokenType." ++ i.token.name ++ " followed by TokenType." ++ i.next.name ++ " at line " ++
    toString i.line ++ ", column " ++ toString i.column

end BraceLang

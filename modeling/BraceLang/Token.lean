import BraceLang.Text.Quoted

/-!
# Tokens

The kinds of token of the language, their names in reports, the reserved words, and a token with its place in the
source.
-/

namespace BraceLang

/-- The kinds of token.  Some are never made from source text: a report or a hand-made token list may still name
them. -/
inductive TokenKind where
  | number | string | fstring | rstring | frstring | regex | identifier | defKw | classKw | ifKw | elifKw
  | elseKw | forKw | whileKw | returnKw | importKw | fromKw | asKw | withKw | tryKw | exceptKw | finallyKw
  | raiseKw | passKw | breakKw | continueKw | trueKw | falseKw | noneKw | andKw | orKw | notKw | inKw | isKw
  | lambdaKw | interfaceKw | abstractKw | finalKw | staticKw | extendsKw | implementsKw | dataKw | enumKw | plus
  | minus | star | slash | percent | doubleStar | doubleSlash | equal | notEqual | less | greater | lessEqual
  | greaterEqual | assign | plusAssign | minusAssign | starAssign | slashAssign | percentAssign
  | doubleStarAssign | doubleSlashAssign | lparen | rparen | lbracket | rbracket | lbrace | rbrace | comma
  | colon | semicolon | dot | arrow | atSign | atParen | atBang | newline | indent | dedent | eof | comment
  | switchKw | caseKw | defaultKw | boolean
  deriving DecidableEq, Repr, Inhabited

namespace TokenKind

def name : TokenKind → String
  | .number => "NUMBER"
  | .string => "STRING"
  | .fstring => "FSTRING"
  | .rstring => "RSTRING"
  | .frstring => "FRSTRING"
  | .regex => "REGEX"
  | .identifier => "IDENTIFIER"
  | .defKw => "DEF"
  | .classKw => "CLASS"
  | .ifKw => "IF"
  | .elifKw => "ELIF"
  | .elseKw => "ELSE"
  | .forKw => "FOR"
  | .whileKw => "WHILE"
  | .returnKw => "RETURN"
  | .importKw => "IMPORT"
  | .fromKw => "FROM"
  | .asKw => "AS"
  | .withKw => "WITH"
  | .tryKw => "TRY"
  | .exceptKw => "EXCEPT"
  | .finallyKw => "FINALLY"
  | .raiseKw => "RAISE"
  | .passKw => "PASS"
  | .breakKw => "BREAK"
  | .continueKw => "CONTINUE"
  | .trueKw => "TRUE"
  | .falseKw => "FALSE"
  | .noneKw => "NONE"
  | .andKw => "AND"
  | .orKw => "OR"
  | .notKw => "NOT"
  | .inKw => "IN"
  | .isKw => "IS"
  | .lambdaKw => "LAMBDA"
  | .interfaceKw => "INTERFACE"
  | .abstractKw => "ABSTRACT"
  | .finalKw => "FINAL"
  | .staticKw => "STATIC"
  | .extendsKw => "EXTENDS"
  | .implementsKw => "IMPLEMENTS"
  | .dataKw => "DATA"
  | .enumKw => "ENUM"
  | .plus => "PLUS"
  | .minus => "MINUS"
  | .star => "STAR"
  | .slash => "SLASH"
  | .percent => "PERCENT"
  | .doubleStar => "DOUBLESTAR"
  | .doubleSlash => "DOUBLESLASH"
  | .equal => "EQUAL"
  | .notEqual => "NOTEQUAL"
  | .less => "LESS"
  | .greater => "GREATER"
  | .lessEqual => "LESSEQUAL"
  | .greaterEqual => "GREATEREQUAL"
  | .assign => "ASSIGN"
  | .plusAssign => "PLUSASSIGN"
  | .minusAssign => "MINUSASSIGN"
  | .starAssign => "STARASSIGN"
  | .slashAssign => "SLASHASSIGN"
  | .percentAssign => "PERCENTASSIGN"
  | .doubleStarAssign => "DOUBLESTARASSIGN"
  | .doubleSlashAssign => "DOUBLESLASHASSIGN"
  | .lparen => "LPAREN"
  | .rparen => "RPAREN"
  | .lbracket => "LBRACKET"
  | .rbracket => "RBRACKET"
  | .lbrace => "LBRACE"
  | .rbrace => "RBRACE"
  | .comma => "COMMA"
  | .colon => "COLON"
  | .semicolon => "SEMICOLON"
  | .dot => "DOT"
  | .arrow => "ARROW"
  | .atSign => "AT"
  | .atParen => "AT_LPAREN"
  | .atBang => "AT_BANG"
  | .newline => "NEWLINE"
  | .indent => "INDENT"
  | .dedent => "DEDENT"
  | .eof => "EOF"
  | .comment => "COMMENT"
  | .switchKw => "SWITCH"
  | .caseKw => "CASE"
  | .defaultKw => "DEFAULT"
  | .boolean => "BOOLEAN"

def all : List TokenKind :=
  [.number, .string, .fstring, .rstring, .frstring, .regex, .identifier, .defKw, .classKw, .ifKw, .elifKw,
    .elseKw, .forKw, .whileKw, .returnKw, .importKw, .fromKw, .asKw, .withKw, .tryKw, .exceptKw, .finallyKw,
    .raiseKw, .passKw, .breakKw, .continueKw, .trueKw, .falseKw, .noneKw, .andKw, .orKw, .notKw, .inKw, .isKw,
    .lambdaKw, .interfaceKw, .abstractKw, .finalKw, .staticKw, .extendsKw, .implementsKw, .dataKw, .enumKw,
    .plus, .minus, .star, .slash, .percent, .doubleStar, .doubleSlash, .equal, .notEqual, .less, .greater,
    .lessEqual, .greaterEqual, .assign, .plusAssign, .minusAssign, .starAssign, .slashAssign, .percentAssign,
    .doubleStarAssign, .doubleSlashAssign, .lparen, .rparen, .lbracket, .rbracket, .lbrace, .rbrace, .comma,
    .colon, .semicolon, .dot, .arrow, .atSign, .atParen, .atBang, .newline, .indent, .dedent, .eof, .comment,
    .switchKw, .caseKw, .defaultKw, .boolean]

def ofName? (s : String) : Option TokenKind := all.find? fun k => k.name == s

def reserved : List (String × TokenKind) :=
  [("def", .defKw), ("class", .classKw), ("if", .ifKw), ("elif", .elifKw), ("else", .elseKw), ("for", .forKw),
    ("while", .whileKw), ("return", .returnKw), ("import", .importKw), ("from", .fromKw), ("as", .asKw),
    ("with", .withKw), ("try", .tryKw), ("except", .exceptKw), ("finally", .finallyKw), ("raise", .raiseKw),
    ("pass", .passKw), ("break", .breakKw), ("continue", .continueKw), ("True", .trueKw), ("False", .falseKw),
    ("None", .noneKw), ("and", .andKw), ("or", .orKw), ("not", .notKw), ("in", .inKw), ("is", .isKw),
    ("lambda", .lambdaKw), ("interface", .interfaceKw), ("abstract", .abstractKw), ("final", .finalKw),
    ("static", .staticKw), ("extends", .extendsKw), ("implements", .implementsKw), ("switch", .switchKw),
    ("case", .caseKw), ("default", .defaultKw), ("data", .dataKw), ("enum", .enumKw)] 
/-- The kind of a word: a reserved word has its own, all others are identifiers. -/
def ofWord (w : String) : TokenKind := (reserved.lookup w).getD .identifier

def isOperand (k : TokenKind) : Bool :=
  k ∈ [trueKw, falseKw, identifier, string, number, noneKw]

def isConnective (k : TokenKind) : Bool := k ∈ [andKw, orKw, notKw, inKw, isKw]

def startsCondition (k : TokenKind) : Bool := k.isOperand || k == notKw

end TokenKind

/-- A token: its kind, its text, the line (from one) and the column (from zero) where it starts, and the file it is
from if that is known. -/
structure Token where
  kind : TokenKind
  value : Option String
  line : Int
  column : Int
  file : Option String := none
  deriving DecidableEq, Repr, Inhabited

namespace Token

def text (t : Token) : String := t.value.getD ""

def describe (t : Token) : String :=
  "Token(" ++ t.kind.name ++ ", " ++ optionalQuoted t.value ++ ", " ++ toString t.line ++ ", " ++
    toString t.column ++ ")"

def fileName (t : Token) : String :=
  match t.file with
  | none => "<unknown>"
  | some f => if f.isEmpty then "<unknown>" else f

def place (t : Token) : String :=
  t.fileName ++ ":" ++ toString t.line ++ ":" ++ toString t.column

end Token

end BraceLang

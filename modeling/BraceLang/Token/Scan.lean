import BraceLang.Text.Blank
import BraceLang.Token.Follow
import BraceLang.Token.Lexeme

/-!
# From text to tokens

A source is read line by line.
-/

namespace BraceLang

/-- A lexeme read from a line, with the column where it starts. -/
structure Lexeme where
  kind : TokenKind
  value : String
  column : Nat
  deriving DecidableEq, Repr

/-- What was read from a line: its lexemes, and the character at which reading stopped if no lexeme starts there. -/
structure LineScan where
  lexemes : List Lexeme
  stuck : Option (Char × Nat)
  deriving DecidableEq, Repr

def scanLine (column : Nat) (cs : List Char) : LineScan :=
  match cs with
  | [] => ⟨[], none⟩
  | c :: rest =>
    if isBlank c then scanLine (column + 1) rest
    else
      match h : firstLexeme? (c :: rest) with
      | none => ⟨[], some (c, column)⟩
      | some (kind, v, r) =>
        have : r.length < (c :: rest).length := firstLexeme?_length_lt h
        let tail := scanLine (column + ((c :: rest).length - r.length)) r
        ⟨⟨kind, String.ofList v, column⟩ :: tail.lexemes, tail.stuck⟩
termination_by cs.length
decreasing_by
  · simp
  · exact this

def splitLines : List Char → List (List Char)
  | [] => [[]]
  | c :: cs =>
    if c = '\n' then [] :: splitLines cs
    else
      match splitLines cs with
      | [] => [[c]]
      | l :: ls => (c :: l) :: ls

inductive LexError where
  | invalidCharacter (c : Char) (line column : Nat)
  deriving DecidableEq, Repr

def LexError.message : LexError → String
  | invalidCharacter c line column =>
    "Invalid character '" ++ c.toString ++ "' at line " ++ toString line ++ ", column " ++ toString column

/-- The kinds of the last two tokens so far. -/
structure LastKinds where
  earlier : Option TokenKind
  later : Option TokenKind
  deriving DecidableEq, Repr

def LastKinds.push (l : LastKinds) (k : TokenKind) : LastKinds := ⟨l.later, some k⟩

def LastKinds.issue? (l : LastKinds) (line column : Nat) : Option FollowIssue :=
  match l.earlier, l.later with
  | some a, some b => followIssue? a b line column
  | _, _ => none

def lineIssues (line : Nat) : LastKinds → List Lexeme → List FollowIssue × LastKinds
  | last, [] => ([], last)
  | last, x :: xs =>
    let last := if x.kind = .comment then last else last.push x.kind
    let (rest, final) := lineIssues line last xs
    ((last.issue? line x.column).toList ++ rest, final)

/-- The tokens of a line: its lexemes without the comment, and the mark of its end. -/
def lineTokens (line length : Nat) (xs : List Lexeme) : List Token :=
  ((xs.filter fun x => x.kind ≠ .comment).map fun x => ⟨x.kind, some x.value, line, x.column, none⟩) ++
    [⟨.newline, some "\\\\n", line, length, none⟩]

/-- The outcome of reading a source.  The issues are those up to the place where reading ended. -/
structure Scan where
  tokens : List Token
  issues : List FollowIssue
  error : Option LexError
  deriving DecidableEq, Repr

def scanLines : Nat → LastKinds → List (List Char) → Scan
  | line, _, [] => ⟨[⟨.eof, none, line - 1, 0, none⟩], [], none⟩
  | line, last, l :: ls =>
    let read := scanLine 0 l
    let (issues, last) := lineIssues line last read.lexemes
    match read.stuck with
    | some (c, column) => ⟨[], issues, some (.invalidCharacter c line column)⟩
    | none =>
      let rest := scanLines (line + 1) (last.push .newline) ls
      ⟨lineTokens line l.length read.lexemes ++ rest.tokens, issues ++ rest.issues, rest.error⟩

def scan (source : String) : Scan := scanLines 1 ⟨none, none⟩ (splitLines source.toList)

def tokenize (source : String) : Except LexError (List Token) :=
  let s := scan source
  match s.error with
  | some e => .error e
  | none => .ok s.tokens

/-- Read several sources in turn.  The issues of a source are listed after those of the sources before it, read to the
end or not. -/
def scanAll : List FollowIssue → List String → List (Except LexError (List Token) × List FollowIssue)
  | _, [] => []
  | seen, s :: rest =>
    let issues := seen ++ (scan s).issues
    (tokenize s, issues) :: scanAll issues rest

end BraceLang

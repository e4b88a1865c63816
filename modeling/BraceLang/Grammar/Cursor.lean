import BraceLang.Grammar.Reply

/-!
# Moves of the cursor

The few moves from which all rules are made: look at a token, test its kind, step over it, demand it.  The end mark is
never stepped over.
-/

namespace BraceLang

namespace Parse

def peek (offset : Int := 0) : Parse Token := fun tokens i =>
  match tokenAt? tokens (i + offset) with
  | some t => .ok t i
  | none => .fail .outOfRange i

def isAtEnd : Parse Bool := do
  return (← peek).kind == .eof

/-- Whether the token at the cursor is of one of the kinds; the end mark never is. -/
def check (kinds : List TokenKind) : Parse Bool := do
  if ← isAtEnd then return false
  return (← peek).kind ∈ kinds

def previous : Parse Token := peek (-1)

/-- Step over a token and give it back.  At the end mark, give back the token before it. -/
def advance : Parse Token := do
  unless ← isAtEnd do
    seek ((← cursor) + 1)
  previous

def back : Parse Token := do
  if 0 < (← cursor) then
    seek ((← cursor) - 1)
    peek 1
  else
    reject "Cannot backtrack beyond start of tokens"

/-- Step over the token if it is of one of the kinds, and say whether it was. -/
def accept (kinds : List TokenKind) : Parse Bool := do
  if kinds.isEmpty then return false
  if ← check kinds then
    let _ ← advance
    return true
  return false

def acceptPastNewline (kinds : List TokenKind) : Parse Bool := do
  if ← check [.newline] then
    let _ ← advance
  accept kinds

def expect (kind : TokenKind) (complaint : String) : Parse Token := do
  if ← check [kind] then advance
  else
    let t ← peek
    reject (complaint ++ " at line " ++ toString t.line ++ " - found " ++ t.kind.name ++ " instead")

def skipAll (kind : TokenKind) : Parse Unit :=
  iterate (fun _ => do
    if ← accept [kind] then return .inl ()
    return .inr ()) ()

def skipNewlines : Parse Unit := skipAll .newline

/-- The tokens from an index on, at most `size` of them.  Below zero the index is the cursor, and bounds below zero
count from the end. -/
def slice (start : Int) (size : Option Int) : Parse (List Token) := do
  let here ← cursor
  let all ← tokens
  let n : Int := all.size
  let start := if start < 0 then here else start
  let stop := start + size.getD (n - here)
  let clamp (i : Int) : Nat := (if i < 0 then max (i + n) 0 else min i n).toNat
  return (all.toList.take (clamp stop)).drop (clamp start)

/-- The kind of the first token from an index on that is no end of line and no comment; past the end, that is the end
mark. -/
def nextKindFrom (start : Int) : Parse TokenKind := fun tokens i =>
  let rec search : Nat → Int → Option TokenKind
    | 0, _ => some .eof
    | n + 1, j =>
      if j < tokens.size then
        match tokenAt? tokens j with
        | none => none
        | some t => if t.kind = .newline ∨ t.kind = .comment then search n (j + 1) else some t.kind
      else some .eof
  match search ((tokens.size - start).toNat + 1) start with
  | some k => .ok k i
  | none => .fail .outOfRange i

/-- The kind of the first token from the cursor on that is no end of line and no comment. -/
def nextKind : Parse TokenKind := do
  nextKindFrom (← cursor)

end Parse

end BraceLang

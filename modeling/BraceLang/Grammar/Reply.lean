import BraceLang.Token

/-!
# Replies of grammar rules

A grammar rule looks at a list of tokens from a cursor.
-/

namespace BraceLang

def tokenAt? (tokens : Array Token) (i : Int) : Option Token :=
  if 0 ≤ i then tokens[i.toNat]?
  else if -(tokens.size : Int) ≤ i then tokens[(tokens.size + i).toNat]?
  else none

def tokenWindow (tokens : Array Token) (index radius : Int) : String :=
  if tokens.isEmpty then "No tokens available."
  else
    let start := (max (index - radius) 0).toNat
    let stop := (min (index + radius + 1) tokens.size).toNat
    String.intercalate "\n" ((List.range' start (stop - start)).filterMap fun (i : Nat) =>
      tokens[i]?.map fun t =>
        (if (i : Int) = index then "->" else "  ") ++ " [" ++ toString i ++ "] " ++ t.kind.name ++ " " ++
          (match t.value with
          | none => ""
          | some v => quoted v) ++
          " @ " ++ t.place)

def clampIndex (tokens : Array Token) (cursor : Int) : Int := min (max cursor 0) (tokens.size - 1)

/-- The rejection of a token list: what is wrong, and where. -/
structure Rejection where
  reason : String
  tokens : Array Token
  cursor : Int
  radius : Int := 5
  deriving DecidableEq, Repr

/-- The report of a rejection: the reason, the token at the cursor, and its neighbours. -/
def Rejection.message (r : Rejection) : String :=
  let index := clampIndex r.tokens r.cursor
  let location :=
    match tokenAt? r.tokens index with
    | none => ""
    | some t => " (token " ++ toString index ++ " @ " ++ t.place ++ " " ++ t.kind.name ++ ")"
  let window := tokenWindow r.tokens index (max r.radius 0)
  r.reason ++ location ++ (if window.isEmpty then "" else "\n\nToken context:\n" ++ window)

inductive ParseError where
  | rejected (r : Rejection)
  /-- There is no token at the cursor: the list has no end mark. -/
  | outOfRange
  /-- An expression starts with a word that is reserved for a form that the grammar does not have. -/
  | lambdaReserved
  /-- The rule for that form was asked for by name. -/
  | lambdaMissing
  | exhausted
  deriving DecidableEq, Repr

def ParseError.message : ParseError → String
  | rejected r => r.message
  | outOfRange => "list index out of range"
  | lambdaReserved => "ExpressionParser.parse_lambda() got an unexpected keyword argument 'context'"
  | lambdaMissing => "Lambda parsing not implemented yet"
  | exhausted => "recursion budget exhausted"

/-- The reply of a rule: a value or an error, and the cursor after it. -/
inductive Reply (α : Type) where
  | ok (value : α) (cursor : Int)
  | fail (error : ParseError) (cursor : Int)
  deriving Repr

namespace Reply

def cursor {α : Type} : Reply α → Int
  | ok _ i => i
  | fail _ i => i

def toExcept {α : Type} : Reply α → Except ParseError α
  | ok a _ => .ok a
  | fail e _ => .error e

end Reply

def Parse (α : Type) := Array Token → Int → Reply α

namespace Parse

instance : Monad Parse where
  pure a := fun _ i => .ok a i
  bind p f := fun tokens i =>
    match p tokens i with
    | .ok a j => f a tokens j
    | .fail e j => .fail e j

def fail {α : Type} (e : ParseError) : Parse α := fun _ i => .fail e i

/-- Reject the tokens, with a reason and the number of neighbours to show on each side. -/
def reject {α : Type} (reason : String) (radius : Int := 5) : Parse α := fun tokens i =>
  .fail (.rejected ⟨reason, tokens, i, radius⟩) i

def cursor : Parse Int := fun _ i => .ok i i

def seek (j : Int) : Parse Unit := fun _ _ => .ok () j

def tokens : Parse (Array Token) := fun tokens i => .ok tokens i

/-- A number above the number of tokens from the cursor on.  A loop or a nest of rules in which every round takes a
token fits in it. -/
def budget : Parse Nat := fun tokens i => .ok ((tokens.size - i).toNat + 2) i

def repeatWithin {σ β : Type} (step : σ → Parse (σ ⊕ β)) : Nat → σ → Parse β
  | 0, _ => fail .exhausted
  | n + 1, s => do
    match ← step s with
    | .inl s => repeatWithin step n s
    | .inr b => pure b

def iterate {σ β : Type} (step : σ → Parse (σ ⊕ β)) (s : σ) : Parse β := do
  repeatWithin step (← budget) s

end Parse

end BraceLang

import BraceLang.Grammar.Expression
import BraceLang.Text.Blank

/-!
# Statements

The statements of blocks. A simple statement may end in a semicolon, and its node says whether it does.
-/

namespace BraceLang

namespace Parse

def rejectAssignment (condition : Node) (complaint : String) : Parse Unit :=
  match condition with
  | .assignment .. => reject complaint
  | _ => pure ()

/-! ### Types and declarations of variables -/

/-- One more part of a type: the parts so far, the last one first, and how many brackets are open. -/
def typeStep : List String × Nat → Parse ((List String × Nat) ⊕ List String)
  | (parts, depth) => do
    let stop : (List String × Nat) ⊕ List String := .inr parts.reverse
    if ← check [.assign, .semicolon, .newline, .rbrace] then return stop
    if ← check [.identifier] then
      let name := optionalText (← advance).value
      return .inl (name :: parts, depth)
    if ← accept [.lbracket] then return .inl ("[" :: parts, depth + 1)
    if ← accept [.rbracket] then
      if depth = 0 then return stop
      return .inl ("]" :: parts, depth - 1)
    if ← accept [.comma] then return .inl (", " :: parts, depth)
    if ← accept [.dot] then return .inl ("." :: parts, depth)
    return stop

def typeText : Parse String := do
  let parts ← iterate typeStep ([], 0)
  return trim (String.join parts)

def looksTyped : Parse Bool := do
  if ← check [.identifier] then
    return (← nextKindFrom ((← cursor) + 1)) = .colon
  return false

/-- The rest of a declaration after its colon: a type, an optional value, and an optional semicolon. -/
def typedRest (target : Node) : Parse Node := do
  let type ← typeText
  if type.isEmpty then reject "Expected type annotation after ':'"
  let assigns ← accept [.assign]
  let value ← if assigns then expression else pure .missing
  let semicolon ← accept [.semicolon]
  return .expression (.assignment target value (if assigns then some "=" else none) (some type) {}) semicolon

def typedDeclaration : Parse Node := do
  let name ← expect .identifier "Expected identifier in typed declaration"
  let _ ← expect .colon "Expected ':' in typed declaration"
  typedRest (.identifier name.text)

def finalDeclaration : Parse Node := do
  if !(← check [.identifier]) then reject "Expected identifier after 'final'"
  let target ← expression
  let type ← if ← accept [.colon] then some <$> typeText else pure none
  if !(← accept [.assign]) then reject "Final variables must be initialized"
  let value ← expression
  let _ ← accept [.semicolon]
  return .finalDecl target value type

/-! ### Statements without a block -/

/-- The value of a `return` or `raise`, if the statement does not end at once. -/
def optionalValue : Parse Node := do
  if ← check [.semicolon, .newline, .rbrace] then return .missing
  expression

def returnRest : Parse Node := do
  let value ← optionalValue
  return .returns value (← accept [.semicolon])

def raiseRest : Parse Node := do
  let value ← optionalValue
  return .raises value (← accept [.semicolon])

def dottedName (complaint : String) : Parse String := do
  let first ← expect .identifier complaint
  iterate (fun (name : String) => do
    if ← accept [.dot] then
      let part ← expect .identifier "Expected module name after '.'"
      return .inl (name ++ "." ++ part.text)
    return .inr name) first.text

def aliasName : Parse (Option String) := do
  if ← accept [.asKw] then return some (← expect .identifier "Expected alias after 'as'").text
  return none

def importedName : Parse (String × Option String) := do
  let name ← expect .identifier "Expected name to import"
  return (name.text, ← aliasName)

def commaSeparated {α : Type} (rule : Parse α) : Parse (List α) := do
  let first ← rule
  iterate (fun (items : List α) => do
    if ← accept [.comma] then return .inl ((← rule) :: items)
    return .inr items.reverse) [first]

def importStatement : Parse Node := do
  if ← accept [.fromKw] then
    let source ← dottedName "Expected module name after 'from'"
    let _ ← expect .importKw "Expected 'import' after module name"
    let items ← commaSeparated importedName
    let semicolon ← accept [.semicolon]
    return .imports ⟨source, items.map Prod.fst, items.map Prod.snd, true, semicolon⟩
  if ← accept [.importKw] then
    let source ← dottedName "Expected module name after 'import'"
    let newName ← aliasName
    let semicolon ← accept [.semicolon]
    return .imports ⟨source, [], (newName.filter (!·.isEmpty)).toList.map some, false, semicolon⟩
  reject "Expected 'import' or 'from' keyword"

def expressionStatement : Parse Node := do
  let value ← expression
  return .expression value (← accept [.semicolon])

/-- An expression as a statement, or a declaration of its target with a type. -/
def expressionOrTyped : Parse Node := do
  let target ← expression
  if ← accept [.colon] then return ← typedRest target
  return .expression target (← accept [.semicolon])

/-! ### Statements with blocks -/

/-- One more statement, after those so far, the last one first.  A token of a blank kind is stepped over. -/
def statementStep (done : Parse Bool) (blanks : List TokenKind) (statement : Parse Node) (stmts : List Node) :
    Parse (List Node ⊕ List Node) := do
  if ← done then return .inr stmts.reverse
  if ← accept blanks then return .inl stmts
  let n ← statement
  return .inl (if n.isPresent then n :: stmts else stmts)

/-- Statements up to a token that ends them, with tokens of the blank kinds between them. -/
def statementsUntil (done : Parse Bool) (blanks : List TokenKind) (statement : Parse Node) : Parse (List Node) :=
  iterate (statementStep done blanks statement) []

def atBlockEnd : Parse Bool := do
  if ← check [.rbrace] then return true
  isAtEnd

def block (statement : Parse Node) : Parse (List Node) := do
  let body ← statementsUntil atBlockEnd [.newline, .comment] statement
  let _ ← expect .rbrace "Expected '\x7d' after block"
  return body

def functionBody (statement : Parse Node) : Parse (List Node) :=
  statementsUntil atBlockEnd [.newline, .comment] statement

/-- The rest of a conditional.  A chain may be continued by `elif`, by `else` and another conditional, or by `else` and
a block. -/
def conditionalRest (statement : Parse Node) : Nat → Parse Node
  | 0 => fail .exhausted
  | n + 1 => do
    let condition ← expression
    rejectAssignment condition "Assignment expressions are not allowed as 'if' conditions"
    let _ ← expect .lbrace "Expected '\x7b' after if condition"
    let thenBody ← block statement
    if ← check [.elifKw] then
      let _ ← advance
      return .conditional condition thenBody [← conditionalRest statement n]
    if ← accept [.elseKw] then
      if ← check [.ifKw] then return .conditional condition thenBody [← statement]
      let _ ← expect .lbrace "Expected '\x7b' after 'else'"
      return .conditional condition thenBody (← block statement)
    return .conditional condition thenBody []

def whileRest (statement : Parse Node) : Parse Node := do
  let parens ← accept [.lparen]
  let condition ← expression
  if parens then
    let _ ← expect .rparen "Expected ')' after while condition"
  rejectAssignment condition "Assignment expressions are not allowed as 'while' conditions"
  let _ ← expect .lbrace "Expected '\x7b' after while condition"
  return .whileLoop condition (← block statement)

def forRest (statement : Parse Node) : Parse Node := do
  let parens ← accept [.lparen]
  let target ← expression
  if parens then
    let _ ← expect .rparen "Expected ')' after for header"
  let _ ← expect .lbrace "Expected '\x7b' after for header"
  return .forLoop target (← block statement)

def caseRest (statement : Parse Node) : Parse Node := do
  let value ← expression
  let _ ← expect .colon "Expected ':' after case value"
  return .case value (← statementsUntil (check [.caseKw, .defaultKw, .rbrace]) [.newline] statement)

/-- The rest of a switch.  Tokens between its cases are stepped over, and the statements of all defaults are
collected. -/
def switchRest (statement : Parse Node) : Parse Node := do
  let _ ← expect .lparen "Expected '(' after 'switch'"
  let subject ← expression
  let _ ← expect .rparen "Expected ')' after switch expression"
  let _ ← expect .lbrace "Expected '\x7b' after switch header"
  let (cases, default) ← iterate (fun ((cases, default) : List Node × List Node) => do
    if ← atBlockEnd then return .inr (cases.reverse, default)
    if ← accept [.caseKw] then return .inl ((← caseRest statement) :: cases, default)
    if ← accept [.defaultKw] then
      let _ ← expect .colon "Expected ':' after 'default'"
      let body ← statementsUntil (check [.caseKw, .rbrace]) [.newline] statement
      return .inl (cases, default ++ body)
    let _ ← advance
    return .inl (cases, default)) (([] : List Node), ([] : List Node))
  let _ ← expect .rbrace "Expected '\x7d' after switch block"
  return .switch subject cases default

/-- A statement of a block, where `statement` reads the statements inside it. -/
def simpleStep (statement : Parse Node) : Parse Node := do
  if ← accept [.passKw] then return .pass (← accept [.semicolon])
  if ← accept [.finalKw] then return ← finalDeclaration
  if ← looksTyped then return ← typedDeclaration
  if ← accept [.returnKw] then return ← returnRest
  if ← accept [.ifKw] then return ← conditionalRest statement (← budget)
  if ← accept [.whileKw] then return ← whileRest statement
  if ← accept [.forKw] then return ← forRest statement
  if ← accept [.switchKw] then return ← switchRest statement
  if ← accept [.raiseKw] then return ← raiseRest
  if ← check [.importKw, .fromKw] then return ← importStatement
  expressionOrTyped

/-- Statements with at most the given number of statements around each other. -/
def simpleWithin : Nat → Parse Node
  | 0 => fail .exhausted
  | n + 1 => simpleStep (simpleWithin n)

def simpleStatement : Parse Node := do
  simpleWithin (← budget)

end Parse

end BraceLang

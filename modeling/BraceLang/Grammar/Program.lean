import BraceLang.Grammar.Declaration

/-!
# Programs

The statements of a program and the program itself.  A statement may carry annotations; a comment in its place gives no
node.
-/

namespace BraceLang

namespace Parse

def statementCore : Parse Node := do
  let _ ← peek
  if ← check [.comment] then
    let _ ← advance
    return .missing
  let flags ← compilerFlags (some [.abstractKw, .finalKw, .classKw, .defKw])
  let start ← peek
  if ← accept [.interfaceKw] then return ← interfaceRest start.position
  if ← check [.dataKw] then return ← dataClassDeclaration
  if ← check [.enumKw] then return ← enumDeclaration
  let finalClass ←
    if ← check [.finalKw] then do pure ((← nextKindFrom ((← cursor) + 1)) == .classKw) else pure false
  if (← check [.abstractKw, .classKw]) || finalClass then return ← classDeclaration flags
  if ← accept [.defKw] then return ← functionRest flags start.position
  if !flags.isEmpty then reject "Compiler flags must precede a class or function declaration"
  if ← accept [.finalKw] then return ← finalDeclaration
  if ← accept [.returnKw] then return ← returnRest
  if ← accept [.raiseKw] then return ← raiseRest
  if ← check [.importKw, .fromKw] then return ← importStatement
  if ← looksTyped then return ← typedDeclaration
  expressionStatement

def statement : Parse Node := do
  let found ← annotations
  annotate found (← statementCore)

def program : Parse Node := do
  return .module (← statementsUntil isAtEnd [.newline] statement)

end Parse

def parseTokens (tokens : List Token) : Except ParseError Node :=
  (Parse.program tokens.toArray 0).toExcept

end BraceLang

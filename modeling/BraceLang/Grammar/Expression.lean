import BraceLang.Grammar.Cursor
import BraceLang.Syntax.Field

/-!
# Expressions

The grammar of expressions, from the loosest binding to the tightest: assignment, `or`, `and`, membership and
identity, equality, comparison, sums, products, powers, signs and negation, then access, call and index after a
primary.
-/

namespace BraceLang

namespace Parse

def operand (rule : Parse Node) (complaint : String) : Parse Node := do
  let n ← rule
  if n.isPresent then return n
  reject complaint

def operatorStep (next : Parse Node) (operator : Parse Bool) (build : String → Node → Node → Node)
    (complaint : String → String) (left : Node) : Parse (Node ⊕ Node) := do
  if ← operator then
    let op := (← previous).text
    let right ← operand next (complaint op)
    return .inl (build op left right)
  return .inr left

def leftAssoc (next : Parse Node) (operator : Parse Bool) (build : String → Node → Node → Node)
    (complaint : String → String) : Parse Node := do
  iterate (operatorStep next operator build complaint) (← next)

def noOperandAfter (op : String) : String := "Expected expression after '" ++ op ++ "'"

def noValueAfter (op : String) : String := "Expected expression after " ++ op

/-! ### Lists of expressions -/

/-- An argument of a call.  A name before an assignment mark names its argument. -/
def callArgument (expr : Parse Node) : Parse Node := do
  if ← check [.identifier] then
    let start ← cursor
    let name := (← advance).text
    if ← accept [.assign] then
      let value ← operand expr ("Expected value for argument '" ++ name ++ "'")
      return .argument (some name) value
    seek start
  operand expr "Expected expression as argument"

def argumentStep (expr : Parse Node) (args : List Node) : Parse (List Node ⊕ List Node) := do
  let arg ← callArgument expr
  if ← accept [.comma] then
    skipNewlines
    return .inl (arg :: args)
  return .inr (arg :: args).reverse

def callArguments (expr : Parse Node) : Parse (List Node) := do
  skipNewlines
  let args ← if ← check [.rparen] then pure [] else iterate (argumentStep expr) []
  skipNewlines
  return args

def subscriptInside (expr : Parse Node) : Parse Node := do
  if ← check [.rbracket] then reject "Empty subscript not allowed"
  let first ←
    if ← check [.colon] then pure .missing else operand expr "Expected expression in subscript"
  if ← check [.colon] then
    let _ ← advance
    let stop ←
      if ← check [.colon, .rbracket] then pure .missing
      else operand expr "Expected expression for slice stop"
    let step ←
      if ← accept [.colon] then
        if ← check [.rbracket] then pure .missing else operand expr "Expected expression for slice step"
      else pure .missing
    return .slice first stop step
  if first.isPresent then return first
  reject "Expected expression in subscript"

/-! ### Comprehensions -/

def skipToStop (stops : List TokenKind) : Parse Unit :=
  iterate (fun (depth : Nat) => do
    if ← isAtEnd then return .inr ()
    let kind := (← peek).kind
    if depth = 0 ∧ kind ∈ stops then return .inr ()
    if kind ∈ [.lparen, .lbracket, .lbrace] then
      let _ ← advance
      return .inl (depth + 1)
    if kind ∈ [.rparen, .rbracket, .rbrace] then
      if depth = 0 then return .inr ()
      let _ ← advance
      return .inl (depth - 1)
    let _ ← advance
    return .inl depth) 0

def limitedExpression (expr : Parse Node) (stops : List TokenKind) : Parse Node := do
  let start ← cursor
  skipToStop stops
  if (← cursor) = start then return .missing
  seek start
  expr

/-- The tail of a comprehension: its target, its source, its condition, and the bracket that closes it.  A generator is
closed by the rule that opened it. -/
def comprehensionTail (expr : Parse Node) (element : Node) (kind : ComprehensionKind) : Parse Node := do
  let _ ← expect .forKw "Expected 'for' in comprehension"
  let target ← operand expr "Expected target variable in comprehension"
  let _ ← expect .inKw "Expected 'in' in comprehension"
  let source ← operand (limitedExpression expr [.ifKw, .rbracket, .rbrace, .rparen])
    "Expected iterable in comprehension"
  let condition ←
    if ← accept [.ifKw] then
      operand (limitedExpression expr [.rbracket, .rbrace, .rparen])
        "Expected condition after 'if' in comprehension"
    else pure .missing
  match kind with
  | .list =>
    let _ ← expect .rbracket "Expected ']' after list comprehension"
  | .set | .dict =>
    let _ ← expect .rbrace "Expected '\x7d' after set/dict comprehension"
  | _ => pure ()
  return .comprehension element target source condition kind .missing

/-! ### Primary expressions -/

def itemStep (expr : Parse Node) (items : List Node) : Parse (List Node ⊕ List Node) := do
  if ← accept [.comma] then
    let item ← operand expr "Expected expression in list"
    return .inl (item :: items)
  return .inr items.reverse

def listRest (expr : Parse Node) : Parse Node := do
  if ← check [.rbracket] then
    let _ ← advance
    return .collection [] .list
  let first ← operand expr "Expected expression in list"
  if ← check [.forKw] then return ← comprehensionTail expr first .list
  let items ← iterate (itemStep expr) [first]
  let _ ← expect .rbracket "Expected ']' after list elements"
  return .collection items .list

/-- One more entry of a dictionary behind a comma, which may also be the last token of the dictionary. -/
def entryStep (expr : Parse Node) (entries : List Node) : Parse (List Node ⊕ List Node) := do
  if ← accept [.comma] then
    let key ← expr
    if !key.isPresent then return .inr entries.reverse
    let _ ← expect .colon "Expected ':' after dict key"
    let value ← operand expr "Expected value in dict"
    return .inl (.entry key value :: entries)
  return .inr entries.reverse

/-- After the first key and the colon: a dictionary or a dictionary comprehension. -/
def dictRest (expr : Parse Node) (key : Node) : Parse Node := do
  let value ← operand expr "Expected value after ':' in dict"
  if ← check [.forKw] then
    match ← comprehensionTail expr value .dict with
    | .comprehension e t s c k _ => return .comprehension e t s c k key
    | n => return n
  let entries ← iterate (entryStep expr) [.entry key value]
  let _ ← expect .rbrace "Expected '\x7d' after dict elements"
  return .collection entries .dict

/-- One more item of a set behind a comma, which may also be the last token of the set. -/
def setItemStep (expr : Parse Node) (items : List Node) : Parse (List Node ⊕ List Node) := do
  if ← accept [.comma] then
    let item ← expr
    if !item.isPresent then return .inr items.reverse
    return .inl (item :: items)
  return .inr items.reverse

/-- After an opening brace: a set, a dictionary, or a comprehension of either. -/
def braceRest (expr : Parse Node) : Parse Node := do
  if ← check [.rbrace] then
    let _ ← advance
    return .collection [] .dict
  let first ← operand expr "Expected expression in set/dict"
  if ← accept [.colon] then return ← dictRest expr first
  if ← check [.forKw] then return ← comprehensionTail expr first .set
  let items ← iterate (setItemStep expr) [first]
  let _ ← expect .rbrace "Expected '\x7d' after set elements"
  return .collection items .set

/-- One more item of a tuple and the comma behind it, which may also be the last token of the tuple. -/
def tupleItemStep (expr : Parse Node) (items : List Node) : Parse (List Node ⊕ List Node) := do
  let item ← expr
  if !item.isPresent then return .inr items.reverse
  if !(← accept [.comma]) then return .inr (item :: items).reverse
  if ← check [.rparen] then return .inr (item :: items).reverse
  return .inl (item :: items)

/-- After an opening parenthesis: a tuple, a generator, or an expression in parentheses. -/
def parenRest (expr : Parse Node) : Parse Node := do
  if ← check [.rparen] then
    let _ ← advance
    return .collection [] .tuple
  let first ← operand expr "Expected expression after '('"
  if ← check [.forKw] then
    let comp ← comprehensionTail expr first .generator
    let _ ← expect .rparen "Expected ')' after generator expression"
    return comp
  if ← accept [.comma] then
    if ← check [.rparen] then
      let _ ← advance
      return .collection [first] .tuple
    let items ← iterate (tupleItemStep expr) [first]
    let _ ← expect .rparen "Expected ')' after tuple elements"
    return .collection items .tuple
  let _ ← expect .rparen "Expected ')' after expression"
  return first

/-- The index of the last token at or before `i` that is no end of line and no comment. -/
def lastSolid (tokens : Array Token) : Nat → Option TokenKind
  | 0 => none
  | i + 1 =>
    match tokens[i]? with
    | none => none
    | some t => if t.kind = .newline ∨ t.kind = .comment then lastSolid tokens i else some t.kind

/-- Whether a brace at the cursor opens a block of statements: it does unless an arrow stands before it. -/
def opensBlock : Parse Bool := do
  let all ← tokens
  return lastSolid all (← cursor).toNat ≠ some .arrow

def endsCondition (inCondition : Bool) : Parse Bool := do
  if inCondition then
    if ← check [.lbrace] then opensBlock else return false
  else return false

def literalKinds : List (TokenKind × LiteralKind) :=
  [(.number, .number), (.string, .string), (.fstring, .fstring), (.frstring, .frstring), (.regex, .regex)]

/-- A primary expression: a literal, a name, or something in brackets.  Inside a condition a brace opens no literal. -/
def primary (expr : Parse Node) (inCondition : Bool) : Parse Node := do
  if ← endsCondition inCondition then return .missing
  if ← accept [.trueKw] then return .literal (.truth true) .boolean
  if ← accept [.falseKw] then return .literal (.truth false) .boolean
  if ← accept [.lbracket] then return ← listRest expr
  if ← accept [.lbrace] then
    if inCondition then return .missing
    return ← braceRest expr
  if ← accept [.noneKw] then return .literal .absent .none
  if ← accept (literalKinds.map Prod.fst) then
    let t ← previous
    return .literal (t.value.elim .absent .text) ((literalKinds.lookup t.kind).getD .string)
  if ← accept [.identifier] then return .identifier (← previous).text
  if ← accept [.lparen] then return ← parenRest expr
  if ← accept [.lambdaKw] then return ← fail .lambdaReserved
  return .missing

/-! ### Operators -/

def postfixStep (expr : Parse Node) (n : Node) : Parse (Node ⊕ Node) := do
  if ← accept [.dot] then
    if !(← check [.identifier]) then reject "Expected attribute name after '.'"
    return .inl (.member n (← advance).text)
  if ← accept [.lparen] then
    let args ← callArguments expr
    let _ ← expect .rparen "Expected ')' after arguments"
    return .inl (.call n args)
  if ← accept [.lbracket] then
    let index ← subscriptInside expr
    let _ ← expect .rbracket "Expected ']'"
    return .inl (.subscript n index)
  return .inr n

/-- A primary expression and what follows it: access to a member, calls and indices. -/
def postfixed (expr : Parse Node) : Parse Node := do
  let first ← primary expr false
  if !first.isPresent then return .missing
  iterate (postfixStep expr) first

def unary (expr : Parse Node) : Nat → Parse Node
  | 0 => fail .exhausted
  | n + 1 => do
    if ← accept [.notKw] then
      let op := (← previous).text
      return .unary op (← operand (unary expr n) (noOperandAfter "not"))
    if ← accept [.minus] then
      let op := (← previous).text
      return .unary op (← operand (unary expr n) (noOperandAfter "-"))
    postfixed expr

def power (expr : Parse Node) : Nat → Parse Node
  | 0 => fail .exhausted
  | n + 1 => do
    let base ← unary expr (← budget)
    if ← accept [.doubleStar] then
      let op := (← previous).text
      return .binary op base (← operand (power expr n) (noOperandAfter "**"))
    return base

def product (expr : Parse Node) : Parse Node :=
  leftAssoc (do power expr (← budget)) (accept [.star, .slash, .percent, .doubleSlash]) .binary noOperandAfter

def sum (expr : Parse Node) : Parse Node :=
  leftAssoc (product expr) (accept [.plus, .minus]) .binary noOperandAfter

def comparison (expr : Parse Node) : Parse Node :=
  leftAssoc (sum expr) (accept [.less, .greater, .lessEqual, .greaterEqual]) .binary noOperandAfter

def equality (expr : Parse Node) : Parse Node :=
  leftAssoc (comparison expr) (accept [.equal, .notEqual]) .binary noOperandAfter

/-- The right operand of a membership or identity, whose left operand and operator are known. -/
def membershipRight (expr : Parse Node) (op : String) (left : Node) : Parse (Node ⊕ Node) := do
  return .inl (.binary op left (← operand (equality expr) (noOperandAfter op)))

/-- One membership or identity, if there is one more.  A negation without a membership after it is stepped over. -/
def membershipStep (expr : Parse Node) (left : Node) : Parse (Node ⊕ Node) := do
  if ← accept [.inKw] then return ← membershipRight expr "in" left
  if ← accept [.notKw] then
    if ← check [.inKw] then
      let _ ← advance
      return ← membershipRight expr "not in" left
  if ← accept [.isKw] then
    if ← accept [.notKw] then return ← membershipRight expr "is not" left
    return ← membershipRight expr "is" left
  return .inr left

def membership (expr : Parse Node) : Parse Node := do
  iterate (membershipStep expr) (← equality expr)

def conjunction (expr : Parse Node) : Parse Node :=
  leftAssoc (membership expr) (acceptPastNewline [.andKw]) .logical fun _ => noOperandAfter "and"

def disjunction (expr : Parse Node) : Parse Node :=
  leftAssoc (conjunction expr) (acceptPastNewline [.orKw]) .logical fun _ => noOperandAfter "or"

def compoundMarks : List (TokenKind × String) :=
  [(.plusAssign, "+="), (.minusAssign, "-="), (.starAssign, "*="), (.slashAssign, "/="), (.percentAssign, "%="),
    (.doubleStarAssign, "**="), (.doubleSlashAssign, "//=")]

def assigning (expr : Parse Node) : Parse Node := do
  let target ← disjunction expr
  if !target.isPresent then return .missing
  if ← check [.assign] then
    let mark ← advance
    let value ← operand expr "Expected expression after assignment operator"
    return .assignment target value mark.value none ⟨mark.line, mark.column⟩
  if ← check (compoundMarks.map Prod.fst) then
    let mark ← advance
    let op := (compoundMarks.lookup mark.kind).getD ""
    let value ← operand expr (noValueAfter op)
    return .assignment target value (some op) none ⟨mark.line, mark.column⟩
  return target

/-- Expressions with at most the given number of expressions around each other. -/
def expressionWithin : Nat → Parse Node
  | 0 => fail .exhausted
  | n + 1 => assigning (expressionWithin n)

def expression? : Parse Node := do
  expressionWithin (← budget)

def expression : Parse Node := do
  let _ ← peek
  let n ← expression?
  if n.isPresent then return n
  reject ("Could not parse expression at line " ++ toString (← peek).line)

/-- Whether the tokens at the cursor look like the start of a dictionary entry.  One end of line is stepped over. -/
def looksLikeEntry : Parse Bool := do
  let start ← cursor
  let first ← peek
  let here := if first.kind = .newline then start + 1 else start
  if first.kind = .newline then
    let _ ← advance
  let count : Int := (← tokens).size
  let key ← peek (here - (← cursor))
  let next ← peek (here + 1 - (← cursor))
  return here < count - 1 && (key.kind = .string || key.kind = .identifier) && next.kind = .colon

end Parse

end BraceLang

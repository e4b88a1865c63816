import BraceLang.Proofs.KnownTokens
import BraceLang.Syntax.Node

/-!
# Formulas

The expressions that can be written down: names, literals, signs, operators, access to members, calls, indices and
collections.  A formula is a tree without any choice of layout; `Formula.node` is its syntax tree, and `Formula.words`
writes it down.  There are two styles:

* `Style.sparing` encloses an operand in parentheses only where it binds more loosely than its place requires;
* `Style.full` encloses every sign and every operator.
-/

namespace BraceLang

/-- How tightly an expression binds, from the loosest to the tightest. -/
inductive Level where
  | disjunction | conjunction | membership | equality | comparison | sum | product | power | sign | access | primary
  deriving DecidableEq, Repr

namespace Level

def rank : Level → Nat
  | disjunction => 2
  | conjunction => 3
  | membership => 4
  | equality => 5
  | comparison => 6
  | sum => 7
  | product => 8
  | power => 9
  | sign => 10
  | access => 11
  | primary => 12

def next : Level → Level
  | disjunction => conjunction
  | conjunction => membership
  | membership => equality
  | equality => comparison
  | comparison => sum
  | sum => product
  | product => power
  | power => sign
  | sign => access
  | access => primary
  | primary => primary

theorem rank_inj {L M : Level} (h : L.rank = M.rank) : L = M := by
  cases L <;> cases M <;> first | rfl | cases h

theorem rank_le (L : Level) : L.rank ≤ primary.rank := by
  cases L <;> decide

theorem rank_next (h : L ≠ primary) : L.next.rank = L.rank + 1 := by
  cases L <;> first | rfl | exact absurd rfl h

end Level

inductive Sign where
  | negation | minus
  deriving DecidableEq, Repr

def Sign.word : Sign → Word
  | negation => ⟨.notKw, "not"⟩
  | minus => ⟨.minus, "-"⟩

inductive Operator where
  | or | and | inside | notInside | same | notSame | equal | notEqual | less | greater | lessEqual | greaterEqual
  | plus | minus | times | divide | modulo | floorDivide | power
  deriving DecidableEq, Repr

namespace Operator

def level : Operator → Level
  | or => .disjunction
  | and => .conjunction
  | inside | notInside | same | notSame => .membership
  | equal | notEqual => .equality
  | less | greater | lessEqual | greaterEqual => .comparison
  | plus | minus => .sum
  | times | divide | modulo | floorDivide => .product
  | power => .power

/-- The level that the left operand needs: operators group from the left, powers from the right. -/
def leftLevel : Operator → Level
  | power => .sign
  | o => o.level

def rightLevel : Operator → Level
  | power => .power
  | o => o.level.next

def words : Operator → List Word
  | or => [⟨.orKw, "or"⟩]
  | and => [⟨.andKw, "and"⟩]
  | inside => [⟨.inKw, "in"⟩]
  | notInside => [⟨.notKw, "not"⟩, ⟨.inKw, "in"⟩]
  | same => [⟨.isKw, "is"⟩]
  | notSame => [⟨.isKw, "is"⟩, ⟨.notKw, "not"⟩]
  | equal => [⟨.equal, "=="⟩]
  | notEqual => [⟨.notEqual, "!="⟩]
  | less => [⟨.less, "<"⟩]
  | greater => [⟨.greater, ">"⟩]
  | lessEqual => [⟨.lessEqual, "<="⟩]
  | greaterEqual => [⟨.greaterEqual, ">="⟩]
  | plus => [⟨.plus, "+"⟩]
  | minus => [⟨.minus, "-"⟩]
  | times => [⟨.star, "*"⟩]
  | divide => [⟨.slash, "/"⟩]
  | modulo => [⟨.percent, "%"⟩]
  | floorDivide => [⟨.doubleSlash, "//"⟩]
  | power => [⟨.doubleStar, "**"⟩]

def text (o : Operator) : String := String.intercalate " " (o.words.map Word.text)

def node (o : Operator) (left right : Node) : Node :=
  match o with
  | or | and => .logical o.text left right
  | _ => .binary o.text left right

end Operator

/-- An expression.  An argument of a call may have a name; a set has at least one item. -/
inductive Formula where
  | name (s : String)
  | number (s : String)
  | text (s : String)
  | truth (b : Bool)
  | nothing
  | sign (s : Sign) (x : Formula)
  | binary (o : Operator) (left right : Formula)
  | member (x : Formula) (s : String)
  | call (f : Formula) (args : List (Option String × Formula))
  | index (x i : Formula)
  | list (items : List Formula)
  | tuple (items : List Formula)
  | set (first : Formula) (rest : List Formula)
  | dict (entries : List (Formula × Formula))

namespace Formula

def level : Formula → Level
  | sign .. => .sign
  | binary o .. => o.level
  | member .. | call .. | index .. => .access
  | _ => .primary

def argumentNode : Option String → Node → Node
  | none, n => n
  | some s, n => .argument (some s) n

mutual

def node : Formula → Node
  | name s => .identifier s
  | number s => .literal (.text s) .number
  | text s => .literal (.text s) .string
  | truth b => .literal (.truth b) .boolean
  | nothing => .literal .absent .none
  | sign s x => .unary s.word.text x.node
  | binary o l r => o.node l.node r.node
  | member x s => .member x.node s
  | call f args => .call f.node (argumentNodes args)
  | index x i => .subscript x.node i.node
  | list items => .collection (nodes items) .list
  | tuple items => .collection (nodes items) .tuple
  | set first rest => .collection (first.node :: nodes rest) .set
  | dict entries => .collection (entryNodes entries) .dict

def nodes : List Formula → List Node
  | [] => []
  | x :: xs => x.node :: nodes xs

def argumentNodes : List (Option String × Formula) → List Node
  | [] => []
  | (s, x) :: args => argumentNode s x.node :: argumentNodes args

def entryNodes : List (Formula × Formula) → List Node
  | [] => []
  | (k, v) :: entries => .entry k.node v.node :: entryNodes entries

end

end Formula

/-! ### Words -/

inductive Bracket where
  | round | square | curly
  deriving DecidableEq, Repr

def Bracket.opening : Bracket → Word
  | round => ⟨.lparen, "("⟩
  | square => ⟨.lbracket, "["⟩
  | curly => ⟨.lbrace, "\x7b"⟩

def Bracket.closing : Bracket → Word
  | round => ⟨.rparen, ")"⟩
  | square => ⟨.rbracket, "]"⟩
  | curly => ⟨.rbrace, "\x7d"⟩

inductive Style where
  | sparing | full
  deriving DecidableEq, Repr

/-- The level below which an operand is enclosed, for the level that its place requires. -/
def Style.threshold : Style → Level → Level
  | sparing, L => L
  | full, _ => .access

def enclosed (ws : List Word) : List Word := ⟨.lparen, "("⟩ :: ws ++ [⟨.rparen, ")"⟩]

def placed (style : Style) (required level : Level) (ws : List Word) : List Word :=
  if level.rank < (style.threshold required).rank then enclosed ws else ws

/-- The words of a right operand: behind `is`, a negation would become part of the operator. -/
def Operator.guard (o : Operator) (ws : List Word) : List Word :=
  if o = .same ∧ (ws.head?.map Word.kind) = some .notKw then enclosed ws else ws

def nameWords : Option String → List Word
  | none => []
  | some s => [⟨.identifier, s⟩, ⟨.assign, "="⟩]

namespace Formula

mutual

def words (style : Style) : Formula → List Word
  | name s => [⟨.identifier, s⟩]
  | number s => [⟨.number, s⟩]
  | text s => [⟨.string, s⟩]
  | truth true => [⟨.trueKw, "True"⟩]
  | truth false => [⟨.falseKw, "False"⟩]
  | nothing => [⟨.noneKw, "None"⟩]
  | sign s x => s.word :: placed style .sign x.level (words style x)
  | binary o l r =>
    placed style o.leftLevel l.level (words style l) ++
      (o.words ++ o.guard (placed style o.rightLevel r.level (words style r)))
  | member x s => placed style .access x.level (words style x) ++ [⟨.dot, "."⟩, ⟨.identifier, s⟩]
  | call f args =>
    placed style .access f.level (words style f) ++ ⟨.lparen, "("⟩ :: (argumentWords style args ++ [⟨.rparen, ")"⟩])
  | index x i =>
    placed style .access x.level (words style x) ++
      ⟨.lbracket, "["⟩ :: (placed style .disjunction i.level (words style i) ++ [⟨.rbracket, "]"⟩])
  | list items => ⟨.lbracket, "["⟩ :: (itemWords style items ++ [⟨.rbracket, "]"⟩])
  | tuple [x] =>
    ⟨.lparen, "("⟩ :: (placed style .disjunction x.level (words style x) ++ [⟨.comma, ","⟩] ++ [⟨.rparen, ")"⟩])
  | tuple items => ⟨.lparen, "("⟩ :: (itemWords style items ++ [⟨.rparen, ")"⟩])
  | set first rest =>
    ⟨.lbrace, "\x7b"⟩ ::
      (placed style .disjunction first.level (words style first) ++ moreWords style rest ++ [⟨.rbrace, "\x7d"⟩])
  | dict entries => ⟨.lbrace, "\x7b"⟩ :: (entryWords style entries ++ [⟨.rbrace, "\x7d"⟩])

def itemWords (style : Style) : List Formula → List Word
  | [] => []
  | x :: xs => placed style .disjunction x.level (words style x) ++ moreWords style xs

def moreWords (style : Style) : List Formula → List Word
  | [] => []
  | x :: xs => ⟨.comma, ","⟩ :: (placed style .disjunction x.level (words style x) ++ moreWords style xs)

def argumentWords (style : Style) : List (Option String × Formula) → List Word
  | [] => []
  | (s, x) :: args =>
    nameWords s ++ placed style .disjunction x.level (words style x) ++ moreArgumentWords style args

def moreArgumentWords (style : Style) : List (Option String × Formula) → List Word
  | [] => []
  | (s, x) :: args =>
    ⟨.comma, ","⟩ :: (nameWords s ++ placed style .disjunction x.level (words style x) ++ moreArgumentWords style args)

def entryWords (style : Style) : List (Formula × Formula) → List Word
  | [] => []
  | (k, v) :: entries =>
    placed style .disjunction k.level (words style k) ++
      ⟨.colon, ":"⟩ :: placed style .disjunction v.level (words style v) ++ moreEntryWords style entries

def moreEntryWords (style : Style) : List (Formula × Formula) → List Word
  | [] => []
  | (k, v) :: entries =>
    ⟨.comma, ","⟩ :: (placed style .disjunction k.level (words style k) ++
      ⟨.colon, ":"⟩ :: placed style .disjunction v.level (words style v) ++ moreEntryWords style entries)

end

def wholeWords (style : Style) (f : Formula) : List Word := placed style .disjunction f.level (f.words style)

end Formula

end BraceLang

import BraceLang.Proofs.Formula
import BraceLang.Proofs.Lexing

/-!
# Bodies of blocks

The inside of a block as it can be written down.
-/

namespace BraceLang

inductive Place where
  | name (s : String)
  | member (x : Formula) (s : String)
  | index (x i : Formula)

def Place.formula : Place → Formula
  | name s => .name s
  | member x s => .member x s
  | index x i => .index x i

inductive Mark where
  | plain | plus | minus | times | divide
  deriving DecidableEq, Repr

def Mark.word : Mark → Word
  | plain => ⟨.assign, "="⟩
  | plus => ⟨.plusAssign, "+="⟩
  | minus => ⟨.minusAssign, "-="⟩
  | times => ⟨.starAssign, "*="⟩
  | divide => ⟨.slashAssign, "/="⟩

structure TypeName where
  text : String
  isWord : IsWord text.toList

inductive Phrase where
  | pass
  | returns (value : Option Formula)
  | raises (value : Option Formula)
  | expression (value : Formula)
  | assign (place : Place) (mark : Mark) (value : Formula)
  | declare (name : String) (type : TypeName) (value : Option Formula)

namespace Phrase

def valueNode : Option Formula → Node
  | none => .missing
  | some v => v.node

/-- The syntax tree of a phrase, which says whether a semicolon ends it. -/
def node (semicolon : Bool) : Phrase → Node
  | pass => .pass semicolon
  | returns v => .returns (valueNode v) semicolon
  | raises v => .raises (valueNode v) semicolon
  | expression v => .expression v.node semicolon
  | assign p m v => .expression (.assignment p.formula.node v.node (some m.word.text) none {}) semicolon
  | declare s type v =>
    .expression (.assignment (.identifier s) (valueNode v) (v.map fun _ => "=") (some type.text) {}) semicolon

def valueWords (style : Style) : Option Formula → List Word
  | none => []
  | some v => v.wholeWords style

/-- The words of a value behind its mark, which may be left out with it. -/
def initialWords (style : Style) : Option Formula → List Word
  | none => []
  | some v => ⟨.assign, "="⟩ :: v.wholeWords style

def words (style : Style) : Phrase → List Word
  | pass => [⟨.passKw, "pass"⟩]
  | returns v => ⟨.returnKw, "return"⟩ :: valueWords style v
  | raises v => ⟨.raiseKw, "raise"⟩ :: valueWords style v
  | expression v => v.wholeWords style
  | assign p m v => p.formula.wholeWords style ++ m.word :: v.wholeWords style
  | declare s type v =>
    ⟨.identifier, s⟩ :: ⟨.colon, ":"⟩ :: ⟨.identifier, type.text⟩ :: initialWords style v

end Phrase

inductive Ending where
  | semicolon | newline
  deriving DecidableEq, Repr

def newlineWord : Word := ⟨.newline, "\\\\n"⟩

def Ending.word : Ending → Word
  | semicolon => ⟨.semicolon, ";"⟩
  | newline => newlineWord

/-- The inside of a block: statement after statement, up to the closing brace. -/
inductive Body where
  | done
  | blank (rest : Body)
  /-- A phrase right in front of the closing brace. -/
  | last (p : Phrase)
  | phrase (p : Phrase) (ending : Ending) (rest : Body)
  | conditional (condition : Formula) (body rest : Body)
  | alternative (condition : Formula) (body other rest : Body)
  | whileLoop (condition : Formula) (body rest : Body)
  | forLoop (name : String) (source : Formula) (body rest : Body)

namespace Body

def braced (inside rest : List Word) : List Word := ⟨.lbrace, "\x7b"⟩ :: (inside ++ ⟨.rbrace, "\x7d"⟩ :: rest)

def header (name : String) (source : Formula) : Formula := .binary .inside (.name name) source

def words (style : Style) : Body → List Word
  | done => []
  | blank rest => newlineWord :: rest.words style
  | last p => p.words style
  | phrase p ending rest => p.words style ++ ending.word :: rest.words style
  | conditional c body rest =>
    ⟨.ifKw, "if"⟩ :: (c.wholeWords style ++ braced (body.words style) (rest.words style))
  | alternative c body other rest =>
    ⟨.ifKw, "if"⟩ :: (c.wholeWords style ++
      braced (body.words style) (⟨.elseKw, "else"⟩ :: braced (other.words style) (rest.words style)))
  | whileLoop c body rest =>
    ⟨.whileKw, "while"⟩ :: ⟨.lparen, "("⟩ ::
      (c.wholeWords style ++ ⟨.rparen, ")"⟩ :: braced (body.words style) (rest.words style))
  | forLoop s source body rest =>
    ⟨.forKw, "for"⟩ :: ((header s source).words style ++ braced (body.words style) (rest.words style))

def nodes : Body → List Node
  | done => []
  | blank rest => rest.nodes
  | last p => [p.node false]
  | phrase p ending rest => p.node (ending = .semicolon) :: rest.nodes
  | conditional c body rest => .conditional c.node body.nodes [] :: rest.nodes
  | alternative c body other rest => .conditional c.node body.nodes other.nodes :: rest.nodes
  | whileLoop c body rest => .whileLoop c.node body.nodes :: rest.nodes
  | forLoop s source body rest => .forLoop (header s source).node body.nodes :: rest.nodes

end Body

mutual

def Node.unplaced : Node → Node
  | .expression (.assignment target value operator type _) semicolon =>
    .expression (.assignment target value operator type {}) semicolon
  | .conditional c thenBody elseBody => .conditional c (unplacedAll thenBody) (unplacedAll elseBody)
  | .whileLoop c body => .whileLoop c (unplacedAll body)
  | .forLoop target body => .forLoop target (unplacedAll body)
  | n => n

def Node.unplacedAll : List Node → List Node
  | [] => []
  | n :: ns => n.unplaced :: unplacedAll ns

end

end BraceLang

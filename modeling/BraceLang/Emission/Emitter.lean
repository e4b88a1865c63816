import BraceLang.Emission.Target

/-!
# The emitter

Text is written in pieces.
-/

namespace BraceLang

/-- The finals of one scope, the newest first. -/
abbrev FinalScope := List (String × String)

structure Emitter where
  output : Array String := #[]
  depth : Nat := 0
  /-- Whether functions are methods. -/
  inClass : Bool := false
  /-- The scopes of finals, the innermost first. -/
  finals : List FinalScope := [[]]
  classNames : List String := []
  /-- The classes around, the innermost first. -/
  classStack : List String := []
  typeParams : List String := []
  deriving Repr, Inhabited

namespace Emitter

def indented (e : Emitter) (s : String) : String := String.ofList (List.replicate (4 * e.depth) ' ') ++ s

def finalValue? (e : Emitter) (name : String) : Option String := e.finals.findSome? (·.lookup name)

/-- Where a cut begins, when a node changed the number of pieces from `before` to `after`.  What was added is cut; a
node that added nothing takes everything, and one that took pieces away leaves as many as it took. -/
def cutPoint (before after : Nat) : Nat := if before < after then before else min (before - after) after

end Emitter

abbrev Emit := StateM Emitter

namespace Emit

def write (s : String) : Emit Unit := modify fun e => { e with output := e.output.push s }

def line (s : String) : Emit Unit := do write ((← get).indented s)

def newLine : Emit Unit := write "\n"

def newLineIndented : Emit Unit := do write ("\n" ++ (← get).indented "")

/-- Open a block and write the end of the line and the indentation of the next. -/
def newLineDeeper : Emit Unit := do
  modify fun e => { e with depth := e.depth + 1 }
  newLineIndented

def deeper (m : Emit Unit) : Emit Unit := do
  modify fun e => { e with depth := e.depth + 1 }
  m
  modify fun e => { e with depth := e.depth - 1 }

def pushFinals : Emit Unit := modify fun e => { e with finals := [] :: e.finals }

def popFinals : Emit Unit := modify fun e =>
  { e with finals := match e.finals with
      | _ :: scope :: scopes => scope :: scopes
      | scopes => scopes }

def setFinal (name value : String) : Emit Unit :=
  unless name.isEmpty do
    modify fun e => { e with finals := match e.finals with
      | scope :: scopes => ((name, value) :: scope) :: scopes
      | [] => [] }

def withFinals (m : Emit Unit) : Emit Unit := do
  pushFinals
  m
  popFinals

/-- Do something inside the class `name`, with its type parameters if it has a list of them. -/
def withinClass (name : String) (params : Option (List String)) (m : Emit Unit) : Emit Unit := do
  let outer ← get
  modify fun e =>
    { e with inClass := true, classStack := name :: e.classStack, typeParams := params.getD e.typeParams }
  m
  modify fun e =>
    { e with inClass := outer.inClass, classStack := e.classStack.tail, typeParams := outer.typeParams }

def takeFrom (start : Nat) : Emit String := do
  let e ← get
  set { e with output := e.output.extract 0 start }
  return String.join (e.output.extract start e.output.size).toList

def size : Emit Nat := return (← get).output.size

def cutText (m : Emit Unit) : Emit String := do
  let before ← size
  m
  takeFrom (Emitter.cutPoint before (← size))

def tailText (m : Emit Unit) : Emit String := do
  let before ← size
  m
  takeFrom before

/-- The text that something writes, by taking back the pieces that it added if their number changed. -/
def cutTextIfAny (m : Emit Unit) : Emit String := do
  let before ← size
  m
  let after ← size
  if before = after then return "" else takeFrom (Emitter.cutPoint before after)

def freshText (m : Emit Unit) : Emit String := do
  let output := (← get).output
  modify fun e => { e with output := #[] }
  m
  let text := String.join (← get).output.toList
  modify fun e => { e with output := output }
  return text

end Emit

end BraceLang

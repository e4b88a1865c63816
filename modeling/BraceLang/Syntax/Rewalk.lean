import BraceLang.Syntax.Field

/-!
# Editing a tree along its walk

`Node.rewalk` goes through a tree in the order of the walk.
-/

namespace BraceLang

namespace Node

variable {σ : Type}

mutual

def rewalk (visit : Node → StateM σ (Node → Node)) : Node → StateM σ Node
  | missing => pure missing
  | module body => do
    let edit ← visit (module body)
    return edit (module (← rewalkAll visit body))
  | annotationUse h args keys values => do
    let edit ← visit (annotationUse h args keys values)
    let values ← rewalkAll visit values
    return edit (annotationUse h (← rewalkAll visit args) keys values)
  | interface name methods bases annotations p => do
    let edit ← visit (interface name methods bases annotations p)
    let annotations ← rewalkAll visit annotations
    match methods with
    | none => return edit (interface name none bases annotations p)
    | some methods => return edit (interface name (some (← rewalkAll visit methods)) bases annotations p)
  | signature name params result annotations p => do
    let edit ← visit (signature name params result annotations p)
    let annotations ← rewalkAll visit annotations
    return edit (signature name (← rewalkAll visit params) result annotations p)
  | parameter name type default annotations => do
    let edit ← visit (parameter name type default annotations)
    return edit (parameter name type default (← rewalkAll visit annotations))
  | typeParameter name bound annotations p => do
    let edit ← visit (typeParameter name bound annotations p)
    return edit (typeParameter name bound (← rewalkAll visit annotations) p)
  | classDecl h body params annotations => do
    let edit ← visit (classDecl h body params annotations)
    let annotations ← rewalkAll visit annotations
    let params ← rewalkAll visit params
    return edit (classDecl h (← rewalkAll visit body) params annotations)
  | function h params body typeParams annotations => do
    let edit ← visit (function h params body typeParams annotations)
    let annotations ← rewalkAll visit annotations
    let typeParams ← rewalkAll visit typeParams
    match body with
    | none => return edit (function h (← rewalkAll visit params) none typeParams annotations)
    | some body =>
      let body ← rewalkAll visit body
      return edit (function h (← rewalkAll visit params) (some body) typeParams annotations)
  | block statements => do
    let edit ← visit (block statements)
    return edit (block (← rewalkAll visit statements))
  | expression value semicolon => do
    let edit ← visit (expression value semicolon)
    return edit (expression (← rewalk visit value) semicolon)
  | returns value semicolon => do
    let edit ← visit (returns value semicolon)
    return edit (returns (← rewalk visit value) semicolon)
  | conditional c t e => do
    let edit ← visit (conditional c t e)
    let e ← rewalkAll visit e
    let t ← rewalkAll visit t
    return edit (conditional (← rewalk visit c) t e)
  | forLoop target body => do
    let edit ← visit (forLoop target body)
    let body ← rewalkAll visit body
    return edit (forLoop (← rewalk visit target) body)
  | whileLoop c body => do
    let edit ← visit (whileLoop c body)
    let body ← rewalkAll visit body
    return edit (whileLoop (← rewalk visit c) body)
  | switch subject cases default => do
    let edit ← visit (switch subject cases default)
    let default ← rewalkAll visit default
    let cases ← rewalkAll visit cases
    return edit (switch (← rewalk visit subject) cases default)
  | case value body => do
    let edit ← visit (case value body)
    let body ← rewalkAll visit body
    return edit (case (← rewalk visit value) body)
  | assignment target value operator type p => do
    let edit ← visit (assignment target value operator type p)
    let value ← rewalk visit value
    return edit (assignment (← rewalk visit target) value operator type p)
  | member object name => do
    let edit ← visit (member object name)
    return edit (member (← rewalk visit object) name)
  | collection items kind => do
    let edit ← visit (collection items kind)
    return edit (collection (← rewalkAll visit items) kind)
  | call callee arguments => do
    let edit ← visit (call callee arguments)
    let arguments ← rewalkAll visit arguments
    return edit (call (← rewalk visit callee) arguments)
  | argument name value => do
    let edit ← visit (argument name value)
    return edit (argument name (← rewalk visit value))
  | logical operator left right => do
    let edit ← visit (logical operator left right)
    let right ← rewalk visit right
    return edit (logical operator (← rewalk visit left) right)
  | unary operator operand => do
    let edit ← visit (unary operator operand)
    return edit (unary operator (← rewalk visit operand))
  | binary operator left right => do
    let edit ← visit (binary operator left right)
    let right ← rewalk visit right
    return edit (binary operator (← rewalk visit left) right)
  | lambda params body result => do
    let edit ← visit (lambda params body result)
    let body ← rewalk visit body
    return edit (lambda (← rewalkAll visit params) body result)
  | raises exception semicolon => do
    let edit ← visit (raises exception semicolon)
    return edit (raises (← rewalk visit exception) semicolon)
  | entry key value => do
    let edit ← visit (entry key value)
    let value ← rewalk visit value
    return edit (entry (← rewalk visit key) value)
  | subscript object index => do
    let edit ← visit (subscript object index)
    let index ← rewalk visit index
    return edit (subscript (← rewalk visit object) index)
  | slice start stop step => do
    let edit ← visit (slice start stop step)
    let step ← rewalk visit step
    let stop ← rewalk visit stop
    return edit (slice (← rewalk visit start) stop step)
  | comprehension element target source condition kind key => do
    let edit ← visit (comprehension element target source condition kind key)
    let key ← rewalk visit key
    let condition ← rewalk visit condition
    let source ← rewalk visit source
    let target ← rewalk visit target
    return edit (comprehension (← rewalk visit element) target source condition kind key)
  | finalDecl target value type => do
    let edit ← visit (finalDecl target value type)
    let value ← rewalk visit value
    return edit (finalDecl (← rewalk visit target) value type)
  | dataClass name fields body params bases annotations p => do
    let edit ← visit (dataClass name fields body params bases annotations p)
    let annotations ← rewalkAll visit annotations
    let params ← rewalkAll visit params
    let body ← rewalkAll visit body
    return edit (dataClass name (← rewalkAll visit fields) body params bases annotations p)
  | enumMember name args annotations p => do
    let edit ← visit (enumMember name args annotations p)
    let annotations ← rewalkAll visit annotations
    return edit (enumMember name (← rewalkAll visit args) annotations p)
  | enumDecl name members body annotations p => do
    let edit ← visit (enumDecl name members body annotations p)
    let annotations ← rewalkAll visit annotations
    let body ← rewalkAll visit body
    return edit (enumDecl name (← rewalkAll visit members) body annotations p)
  | n => return (← visit n) n

def rewalkAll (visit : Node → StateM σ (Node → Node)) : List Node → StateM σ (List Node)
  | [] => return []
  | n :: ns => do
    let ns ← rewalkAll visit ns
    return (← rewalk visit n) :: ns

end

def editAt (index : Nat) (edit : Node → Node) (n : Node) : Node :=
  ((n.rewalk fun _ => do
    let i ← get
    set (i + 1)
    return if i = index then edit else id).run 0).run.1

end Node

end BraceLang

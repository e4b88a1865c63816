import BraceLang.Proofs.LineText

/-!
# Outlines

The outline of a program lists the lines that it is written on: for each its indentation and the word by which it
opens a block, if it does.
-/

namespace BraceLang

open List

/-- A line: blank, or with its indentation and the word by which it opens a block. -/
inductive LineMark where
  | blank
  | line (indentation : Nat) (opens : Option String)
  deriving DecidableEq, Repr

namespace LineMark

def plain (k : Nat) : LineMark := line (4 * k) none

def opening (k : Nat) (word : String) : LineMark := line (4 * k) (some word)

def ofLine (l : String) : LineMark :=
  let text := l.toList.dropWhile (· = ' ')
  if text.isEmpty then blank else line (l.toList.length - text.length) (blockWord? text)

def StartsAt (i : Nat) : List LineMark → Prop
  | [] => False
  | blank :: ms => StartsAt i ms
  | line j _ :: _ => j = i

/-- Upwards, the first line that is neither blank nor deeper is an `if` or `elif` of the given indentation. -/
def Continues (i : Nat) : List LineMark → Prop
  | [] => False
  | blank :: ms => Continues i ms
  | line j o :: ms => if i < j then Continues i ms else j = i ∧ (o = some "if" ∨ o = some "elif")

/-- Below the lines `above`, the nearest first, every block is opened by a line of its own, and every `elif` and `else`
goes on with a chain. -/
def WellBlocked (above : List LineMark) : List LineMark → Prop
  | [] => True
  | blank :: ms => WellBlocked (blank :: above) ms
  | line i none :: ms => WellBlocked (line i none :: above) ms
  | line i (some word) :: ms =>
    StartsAt (i + 4) ms ∧ (word = "elif" ∨ word = "else" → Continues i above) ∧
      WellBlocked (line i (some word) :: above) ms

instance decidableStartsAt (i : Nat) : (ms : List LineMark) → Decidable (StartsAt i ms)
  | [] => inferInstanceAs (Decidable False)
  | blank :: ms => decidableStartsAt i ms
  | line j _ :: _ => inferInstanceAs (Decidable (j = i))

instance decidableContinues (i : Nat) : (ms : List LineMark) → Decidable (Continues i ms)
  | [] => inferInstanceAs (Decidable False)
  | blank :: ms => decidableContinues i ms
  | line j o :: ms =>
    have := decidableContinues i ms
    inferInstanceAs (Decidable (if i < j then Continues i ms else j = i ∧ (o = some "if" ∨ o = some "elif")))

instance decidableWellBlocked (above : List LineMark) : (ms : List LineMark) → Decidable (WellBlocked above ms)
  | [] => inferInstanceAs (Decidable True)
  | blank :: ms => decidableWellBlocked (blank :: above) ms
  | line i none :: ms => decidableWellBlocked (line i none :: above) ms
  | line i (some word) :: ms =>
    have := decidableWellBlocked (line i (some word) :: above) ms
    inferInstanceAs (Decidable (_ ∧ _ ∧ _))

def Within (i : Nat) : LineMark → Prop
  | blank => True
  | line j _ => i ≤ j

end LineMark

open LineMark

/-! ### The outline of a tree -/

namespace Node

def signatureMarks (k : Nat) : List LineMark := [opening k "def", plain (k + 1), plain (k + 1)]

def decoratorCount (head : FunctionHead) (annotations : List Node) : Nat :=
  annotations.countP isRuntime + head.isStatic.toNat + head.isAbstract.toNat + head.isFinal.toNat +
    head.decorators.length

mutual

/-- The lines of a statement `k` blocks deep.  An import starts at the margin wherever it stands. -/
def outline (k : Nat) : Node → List LineMark
  | interface _ methods _ _ _ =>
    opening k "class" :: plain (k + 1) ::
      ((match methods with
        | none | some [] => [plain (k + 1)]
        | some (_ :: ms) =>
          blank :: (signatureMarks (k + 1) ++ ms.flatMap fun _ => blank :: signatureMarks (k + 1))) ++ [blank])
  | classDecl head body _ _ =>
    replicate head.isFinal.toNat (plain k) ++ opening k "class" :: plain (k + 1) ::
      (match body with
      | [] => []
      | n :: ns => blank :: (outline (k + 1) n ++ outlineFollowing (k + 1) ns))
  | dataClass _ fields body _ _ _ _ =>
    plain k :: opening k "class" :: plain (k + 1) ::
      (replicate fields.length (plain (k + 1)) ++ outlineMembers (k + 1) fields.isEmpty body)
  | enumDecl _ members body _ _ =>
    opening k "class" :: plain (k + 1) ::
      (replicate members.length (plain (k + 1)) ++ outlineMembers (k + 1) members.isEmpty body)
  | function head _ body _ annotations =>
    replicate (decoratorCount head annotations) (plain k) ++ opening k "def" :: plain (k + 1) ::
      (if head.isAbstract then [plain (k + 1)]
      else
        match body with
        | none => []
        | some ns => outlineAll (k + 1) ns)
  | expression .. | pass _ | returns .. | raises .. => [plain k]
  | imports _ => [plain 0]
  | finalDecl .. => [plain k, plain k]
  | conditional _ t e => opening k "if" :: (outlineAll (k + 1) t ++ outlineElse k e)
  | forLoop _ body => opening k "for" :: outlineAll (k + 1) body
  | whileLoop _ body => opening k "while" :: outlineAll (k + 1) body
  | switch _ cases default => outlineCases k "if" cases ++ outlineDefault k default
  | _ => []

def outlineAll (k : Nat) : List Node → List LineMark
  | [] => []
  | n :: ns => outline k n ++ outlineAll k ns

def outlineFollowing (k : Nat) : List Node → List LineMark
  | [] => []
  | n :: ns => blank :: (outline k n ++ outlineFollowing k ns)

/-- The lines of the statements of a class, below others unless there are none. -/
def outlineMembers (k : Nat) (bare : Bool) : List Node → List LineMark
  | [] => if bare then [plain k] else []
  | n :: ns => (if bare then [] else [blank]) ++ (outline k n ++ outlineFollowing k ns)

def outlineDefault (k : Nat) : List Node → List LineMark
  | [] => []
  | n :: ns => opening k "else" :: (outline (k + 1) n ++ outlineAll (k + 1) ns)

/-- The lines behind the first block of a conditional.  A single conditional there continues the chain. -/
def outlineElse (k : Nat) : List Node → List LineMark
  | [] => []
  | [conditional _ t e] => opening k "elif" :: (outlineAll (k + 1) t ++ outlineElse k e)
  | n :: ns => opening k "else" :: (outline (k + 1) n ++ outlineAll (k + 1) ns)

/-- The lines of the cases of a switch, the first of which is opened by the given word. -/
def outlineCases (k : Nat) (word : String) : List Node → List LineMark
  | [] => []
  | case _ body :: cases => opening k word :: (outlineAll (k + 1) body ++ outlineCases k "elif" cases)
  | _ :: cases => outlineCases k word cases

end

def outlineProgram : List Node → List LineMark
  | [] => []
  | n :: ns => outline 0 n ++ outlineFollowing 0 ns

/-- Whether a statement is written at all: a switch without a case and a default is not. -/
def speaks : Node → Bool
  | switch _ [] [] => false
  | _ => true

def isImport : Node → Bool
  | imports _ => true
  | _ => false

/-- Whether the blocks of a node can be written down.  A block that starts without a line of its own has a statement
that is written, no block holds an import, and a switch with a default has a case. -/
def isSuited : Node → Bool
  | conditional _ t e =>
    t.any speaks && (e.isEmpty || e.any speaks) && (t.all (!·.isImport) && e.all (!·.isImport))
  | forLoop _ body | whileLoop _ body | case _ body => body.any speaks && body.all (!·.isImport)
  | switch _ cases default => (default.isEmpty || (!cases.isEmpty && default.any speaks)) && default.all (!·.isImport)
  | function _ _ (some body) _ _ | classDecl _ body _ _ | dataClass _ _ body _ _ _ _ | enumDecl _ _ body _ _ =>
    body.all (!·.isImport)
  | _ => true

end Node

end BraceLang

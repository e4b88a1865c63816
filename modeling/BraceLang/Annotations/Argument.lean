import BraceLang.Emission.Target
import BraceLang.Number.Shortest
import BraceLang.Syntax.Display

/-!
# Values of annotation arguments

An annotation that the compiler uses up gets its arguments as values, so they have to be literals.
-/

namespace BraceLang

inductive ArgumentValue where
  | absent
  | truth (b : Bool)
  | integer (n : Int)
  | real (x : Real64)
  | text (s : String)
  /-- A collection, with its items as they are written. -/
  | items (ns : List Node)

namespace ArgumentValue

def display : ArgumentValue → String
  | absent => "None"
  | truth b => truthText b
  | integer n => toString n
  | real x => x.text
  | text s => s
  | items ns => Node.fullList ns

def literal : ArgumentValue → String
  | text s => quoted s
  | v => v.display

end ArgumentValue

inductive ArgumentError where
  | notLiteral (kind : String)
  | badInteger (text : String)
  | longInteger (digits : Nat)
  | badReal (text : String)
  deriving DecidableEq, Repr

def ArgumentError.message : ArgumentError → String
  | notLiteral kind => "argument must be a compile-time literal, got " ++ kind
  | badInteger text =>
    "invalid literal for int() with base 10: " ++ String.ofList ((quoted text).toList.take 200)
  | longInteger digits =>
    "Exceeds the limit (" ++ toString Numeral.maxDigits ++ " digits) for integer string conversion: value has " ++
      toString digits ++ " digits; use sys.set_int_max_str_digits() to increase the limit"
  | badReal text => "could not convert string to float: " ++ quoted text

def numberValue (text : String) : Except ArgumentError ArgumentValue :=
  if text.toList.any fun c => c = '.' || c = 'e' || c = 'E' then
    match Numeral.decimal? text with
    | some d => .ok (.real d.toReal64)
    | none => .error (.badReal text)
  else
    let digits := Numeral.leadingDigits text
    if Numeral.maxDigits < digits.length then .error (.longInteger digits.length)
    else
      match Numeral.integer? text with
      | some n => .ok (.integer n)
      | none => .error (.badInteger text)

def Scalar.toArgument : Scalar → ArgumentValue
  | absent => .absent
  | truth b => .truth b
  | integer n => .integer n
  | text s => .text s

def literalValue (kind : LiteralKind) (text : String) (isTrue : Bool) (value : ArgumentValue) :
    Except ArgumentError ArgumentValue :=
  match kind with
  | .number => numberValue text
  | .string | .fstring => .ok (.text (unquoted text))
  | .boolean => .ok (.truth isTrue)
  | _ => .ok value

def Node.argumentValue : Node → Except ArgumentError ArgumentValue
  | literal value kind => literalValue kind value.display value.isTrue value.toArgument
  | collection items kind => literalValue kind (fullList items) (!items.isEmpty) (.items items)
  | n => .error (.notLiteral n.className)

end BraceLang

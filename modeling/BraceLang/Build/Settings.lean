import BraceLang.NameMap
import BraceLang.Number.Shortest
import BraceLang.Text.Quoted

/-!
# Build settings

The settings of a build are an open list of named values. Some names are known and always have a value; tools may add
others.
-/

namespace BraceLang

inductive SettingValue where
  | absent
  | truth (b : Bool)
  | integer (n : Int)
  | real (x : Real64)
  | text (s : String)
  | list (items : List SettingValue)
  | map (keys : List String) (values : List SettingValue)
  deriving Inhabited

namespace SettingValue

mutual

def display : SettingValue → String
  | absent => "None"
  | truth b => truthText b
  | integer n => toString n
  | real x => x.text
  | text s => quoted s
  | list items => bracketed (displays items)
  | map keys values =>
    "\x7b" ++ String.intercalate ", " (List.zipWith (fun k v => quoted k ++ ": " ++ v) keys (displays values)) ++ "\x7d"

def displays : List SettingValue → List String
  | [] => []
  | v :: vs => v.display :: displays vs

end

end SettingValue

structure Settings where
  values : NameMap SettingValue
  /-- Values attached under unknown names. -/
  attached : NameMap SettingValue := []

inductive SettingsError where
  | missingSource
  | unknownSetting (name : String)
  | unknownMember (name : String)
  deriving DecidableEq, Repr

def SettingsError.message : SettingsError → String
  | missingSource => "BuildFlags.__init__() missing 1 required positional argument: 'source'"
  | unknownSetting name => quoted name
  | unknownMember name => "'BuildFlags' object has no attribute " ++ quoted name

namespace Settings

/-- The known settings: the name of each, the name that it is given by, and its value if it is not given. -/
def known : List (String × String × SettingValue) :=
  [("source", "source", .absent), ("output", "output", .absent), ("emit", "emit", .text "py"),
    ("keep_intermediates", "keep_intermidiates", .truth false), ("check", "check", .truth false),
    ("watch", "watch", .truth false), ("verbose", "verbose", .truth false),
    ("runtime_checks", "runtime_checks", .truth false)]

def isKnown (name : String) : Bool := known.any (·.1 = name)

/-- Settings from given values.  The source has to be given; a name that is none of those that known settings are given
by is a setting of its own. -/
def ofGiven (given : NameMap SettingValue) : Except SettingsError Settings :=
  if NameMap.has given "source" then
    let start : NameMap SettingValue := known.map fun (name, givenBy, value) =>
      (name, (NameMap.get? given givenBy).getD value)
    let extra := given.filter fun e => !known.any fun k => k.2.1 = e.1
    .ok { values := extra.foldl (fun m e => NameMap.put e.1 e.2 m) start }
  else .error .missingSource

def get (s : Settings) (name : String) (default : SettingValue) : SettingValue :=
  (NameMap.get? s.values name).getD default

def item (s : Settings) (name : String) : Except SettingsError SettingValue :=
  match NameMap.get? s.values name with
  | some v => .ok v
  | none => .error (.unknownSetting name)

def set (s : Settings) (name : String) (value : SettingValue) : Settings :=
  { s with values := NameMap.put name value s.values }

def member (s : Settings) (name : String) : Except SettingsError SettingValue :=
  if isKnown name then .ok (s.get name .absent)
  else match NameMap.get? s.attached name with
    | some v => .ok v
    | none => .error (.unknownMember name)

def setMember (s : Settings) (name : String) (value : SettingValue) : Settings :=
  if isKnown name then s.set name value else { s with attached := NameMap.put name value s.attached }

def display (s : Settings) : String :=
  "BuildFlags(" ++ (SettingValue.map (s.values.map Prod.fst) (s.values.map Prod.snd)).display ++ ")"

end Settings

end BraceLang

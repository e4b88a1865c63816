import BraceLang.Build.Run

/-!
# The command line

Arguments are options and one source.  Options may stand anywhere in front of `--`; short ones can be written together,
and the last value given to an option counts.
-/

namespace BraceLang

inductive CommandOption where
  | output
  | emit
  | keep
  | check
  | watch
  | verbose
  | runtimeChecks
  | version
  | help
  deriving DecidableEq, Repr

namespace CommandOption

def names : List (CommandOption × Option Char × String) :=
  [(output, some 'o', "--output"), (emit, some 'e', "--emit"), (keep, some 'k', "--keep-intermidiates"),
    (check, some 'c', "--check"), (watch, some 'w', "--watch"), (verbose, some 'v', "--verbose"),
    (runtimeChecks, none, "--runtime-checks"), (version, none, "--version"), (help, none, "--help")]

def takesValue (o : CommandOption) : Bool := o = output || o = emit

def ofShort? (c : Char) : Option CommandOption := (names.find? fun n => n.2.1 = some c).map Prod.fst

def ofLong? (name : String) : Option CommandOption := (names.find? fun n => n.2.2 = name).map Prod.fst

end CommandOption

inductive UsageError where
  | noSuchOption (name : String)
  | valueMissing (name : String)
  | valueRefused (name : String)
  | unknownForm (name : String)
  | sourceMissing
  | noSuchSource (path : String)
  | extraArguments (arguments : List String)
  deriving DecidableEq, Repr

def UsageError.message : UsageError → String
  | noSuchOption name => "No such option: " ++ name
  | valueMissing name => "Option '" ++ name ++ "' requires an argument."
  | valueRefused name => "Option '" ++ name ++ "' does not take a value."
  | unknownForm name => "Invalid value for '-e' / '--emit': " ++ quoted name ++ " is not one of 'py', 'pyx', 'exe'."
  | sourceMissing => "Missing argument 'SOURCE'."
  | noSuchSource path => "Invalid value for 'SOURCE': Path " ++ quoted path ++ " does not exist."
  | extraArguments arguments =>
    "Got unexpected extra argument" ++ (if arguments.length = 1 then "" else "s") ++ " (" ++
      String.intercalate " " arguments ++ ")"

structure CommandArguments where
  /-- The options with their values, in order. -/
  options : List (CommandOption × String) := []
  plain : List String := []

namespace CommandArguments

/-- Short options that are written together.  An option whose value is not written with it comes back beside them. -/
def shortOptions : List Char → Except UsageError (List (CommandOption × String) × Option CommandOption)
  | [] => .ok ([], none)
  | c :: cs =>
    match CommandOption.ofShort? c with
    | none => .error (.noSuchOption (String.ofList ['-', c]))
    | some o =>
      if o.takesValue then
        .ok (if cs.isEmpty then ([], some o) else ([(o, String.ofList cs)], none))
      else (shortOptions cs).map fun (given, open') => ((o, "") :: given, open')

def longOption (argument : String) : Except UsageError (List (CommandOption × String) × Option CommandOption) :=
  let name := String.ofList (argument.toList.takeWhile (· ≠ '='))
  let rest := argument.toList.dropWhile (· ≠ '=')
  match CommandOption.ofLong? name with
  | none => .error (.noSuchOption name)
  | some o =>
    match rest with
    | [] => .ok (if o.takesValue then ([], some o) else ([(o, "")], none))
    | _ :: value => if o.takesValue then .ok ([(o, String.ofList value)], none) else .error (.valueRefused name)

def optionsOf? (argument : String) :
    Option (Except UsageError (List (CommandOption × String) × Option CommandOption)) :=
  match argument.toList with
  | '-' :: '-' :: _ => some (longOption argument)
  | '-' :: c :: cs => some (shortOptions (c :: cs))
  | _ => none

def ofList : List String → Except UsageError CommandArguments
  | [] => .ok {}
  | argument :: rest =>
    if argument = "--" then .ok { plain := rest }
    else
      match optionsOf? argument with
      | none => (ofList rest).map fun a => { a with plain := argument :: a.plain }
      | some (.error e) => .error e
      | some (.ok (given, none)) => (ofList rest).map fun a => { a with options := given ++ a.options }
      | some (.ok (given, some o)) =>
        match rest with
        | [] => .error (.valueMissing argument)
        | value :: rest => (ofList rest).map fun a => { a with options := given ++ (o, value) :: a.options }

def value? (a : CommandArguments) (o : CommandOption) : Option String := a.options.reverse.lookup o

def has (a : CommandArguments) (o : CommandOption) : Bool := (a.value? o).isSome

def form (a : CommandArguments) : Except UsageError OutputForm :=
  match a.value? .emit with
  | none => .ok .python
  | some name => if name ∈ ["py", "pyx", "exe"] then .ok (.ofName name) else .error (.unknownForm name)

def request (a : CommandArguments) (tree : FileTree) : Except UsageError (Path × BuildOptions) := do
  let form ← a.form
  match a.plain with
  | [] => .error .sourceMissing
  | source :: more =>
    if !tree.containsText source then .error (.noSuchSource source)
    else if !more.isEmpty then .error (.extraArguments more)
    else return (.ofText source,
      { form := form, output := ((a.value? .output).filter (!·.isEmpty)).map .ofText, keep := a.has .keep })

end CommandArguments

inductive CommandOutcome where
  | built
  | shown (text : String)
  | refused (error : UsageError)
  | failed (error : BuildError)

namespace CommandOutcome

def exitCode : CommandOutcome → Nat
  | built | shown _ => 0
  | failed _ => 1
  | refused _ => 2

def output : CommandOutcome → String
  | shown text => text
  | _ => ""

end CommandOutcome

namespace CommandLine

def versionText : String := "spicy, version " ++ Target.version ++ "\n"

def helpText : String :=
  "Usage: spicy [OPTIONS] SOURCE\n\n  Compile Spice (.spc) files to Python, Cython, or standalone executables.\n\n" ++
  "Options:\n" ++
  "  -o, --output PATH         Output file (default: <source>.py)\n" ++
  "  -e, --emit [py|pyx|exe]   Compilation target (default: py)\n" ++
  "  -k, --keep-intermidiates  Keep intermidiates generated during compilation\n" ++
  "                            (only applies to exe emit)\n" ++
  "  -c, --check               Check syntax without generating output\n" ++
  "  -w, --watch               Watch file for changes. This option disables\n" ++
  "                            verbosity.\n" ++
  "  -v, --verbose             Verbose output\n" ++
  "  --runtime-checks          Add runtime type checking to output\n" ++
  "  --version                 Show the version and exit.\n" ++
  "  --help                    Show this message and exit.\n"

def run (around : Surroundings) (tools : Toolchain) (arguments : List String) : StateM Workspace CommandOutcome := do
  match CommandArguments.ofList arguments with
  | .error e => return .refused e
  | .ok a =>
    match a.options.find? fun (o, _) => o = .version || o = .help with
    | some (.help, _) => return .shown helpText
    | some _ => return .shown versionText
    | none =>
      match a.request (← get).tree with
      | .error e => return .refused e
      | .ok (source, options) =>
        match ← (build around { options with order := around.order } tools source).run with
        | .ok () => return .built
        | .error e => return .failed e

end CommandLine

end BraceLang

import KanaKanji.Text.Decimal

/-!
# The command line of the dictionary tool

A command line is the name of a command with its words and options. Options may stand anywhere,
those that every command has also before its name; `--name=value`, `--name value`, `-nvalue`,
`-n=value` and `-n value` give a value to an option. All that follows `--` are words. A command line
is refused if a word or a value is missing, left over or malformed, if an option is unknown, or if
an option stands twice on the same side of the command's name.
-/

set_option autoImplicit false

namespace KanaKanji.Tool

/-! ### Commands -/

/-- What the tool is asked to do. -/
inductive Command
  | build (input output : String) (alignment : Option Nat)
  | info (file : String)
  | verify (file : String)
  | lookup (file reading : String)
  | fronts (file query : String) (modifierInsensitive : Bool)
  | predict (file start : String) (limit : Nat)
  | convert (file kana : String) (shown : Nat) (modifierInsensitive prediction : Bool)
  | exportSettings
  | validateSettings (file : String)
  deriving DecidableEq, Repr

/-- A command with the options that every command has. -/
structure Invocation where
  settings : Option String
  traceDirectory : Option String
  command : Command
  deriving DecidableEq, Repr

/-! ### Options -/

/-- An option that may be given: its long name, its letter if it has one, and whether it takes a
value. -/
structure OptionKind where
  name : String
  letter : Option Char
  takesValue : Bool
  deriving DecidableEq, Repr

/-- An option that has been given; one that takes no value has the empty one. -/
structure Given where
  name : String
  value : String
  deriving DecidableEq, Repr

/-- The options that every command has. -/
def sharedOptions : List OptionKind := [⟨"settings", none, true⟩, ⟨"trace-dir", none, true⟩]

/-- The option that makes searches pass over kana modifiers. -/
def modifierOption : OptionKind := ⟨"kana-insensitive", none, false⟩

/-- The option with a number of results. -/
def countOption : OptionKind := ⟨"n", some 'n', true⟩

/-- The options of a command besides the shared ones. -/
def ownOptions : (command : String) → List OptionKind
  | "build" => [⟨"alignment", none, true⟩]
  | "prefix" => [modifierOption]
  | "predict" => [countOption]
  | "convert" => [countOption, modifierOption, ⟨"predict", none, false⟩]
  | _ => []

/-! ### Arguments -/

/-- What one argument is. -/
inductive Argument
  | word
  | onlyWordsFollow
  | option (given : Given)
  | valueFollows (name : String)
  | unknown
  deriving DecidableEq, Repr

/-- A long option, with the value after its equals sign if there is one. -/
def longOption (known : List OptionKind) (cs : List Char) : Argument :=
  let name := String.ofList (cs.takeWhile (· != '='))
  let value := cs.dropWhile (· != '=')
  match known.find? (·.name = name) with
  | none => .unknown
  | some kind =>
    match value, kind.takesValue with
    | [], true => .valueFollows name
    | [], false => .option ⟨name, ""⟩
    | _ :: value, true => .option ⟨name, String.ofList value⟩
    | _ :: _, false => .unknown

/-- An option by its letter, with the value that is attached to it if there is one. -/
def letterOption (known : List OptionKind) (letter : Char) (attached : List Char) : Argument :=
  match known.find? (·.letter = some letter) with
  | none => .unknown
  | some kind =>
    match attached with
    | [] => .valueFollows kind.name
    | '=' :: value => .option ⟨kind.name, String.ofList value⟩
    | value => .option ⟨kind.name, String.ofList value⟩

/-- What an argument is. A single hyphen is a word. -/
def Argument.of (known : List OptionKind) (arg : String) : Argument :=
  match arg.toList with
  | ['-', '-'] => .onlyWordsFollow
  | '-' :: '-' :: cs => longOption known cs
  | '-' :: letter :: cs => letterOption known letter cs
  | _ => .word

/-- The options and words among the arguments of a command. -/
structure Arguments where
  options : List Given := []
  words : List String := []
  deriving DecidableEq, Repr

/-- Tells options and words apart. -/
def Arguments.of? (known : List OptionKind) : List String → Option Arguments
  | [] => some {}
  | arg :: rest =>
    match Argument.of known arg with
    | .word => (of? known rest).map fun a ↦ { a with words := arg :: a.words }
    | .onlyWordsFollow => some { words := rest }
    | .option given => (of? known rest).map fun a ↦ { a with options := given :: a.options }
    | .valueFollows name =>
      match rest with
      | [] => none
      | value :: rest =>
        if Argument.of known value = .word then
          (of? known rest).map fun a ↦ { a with options := ⟨name, value⟩ :: a.options }
        else none
    | .unknown => none

/-- The options before the name of the command, that name, and the arguments after it. -/
def splitAtCommand? (known : List OptionKind) :
    List String → Option (List Given × String × List String)
  | [] => none
  | arg :: rest =>
    match Argument.of known arg with
    | .word => some ([], arg, rest)
    | .option given =>
      (splitAtCommand? known rest).map fun (options, after) ↦ (given :: options, after)
    | .valueFollows name =>
      match rest with
      | [] => none
      | value :: rest =>
        if Argument.of known value = .word then
          (splitAtCommand? known rest).map fun (options, after) ↦
            (⟨name, value⟩ :: options, after)
        else none
    | .onlyWordsFollow => none
    | .unknown => none

/-! ### Reading a command line -/

/-- The value of an option. -/
def valueOf (options : List Given) (name : String) : Option String :=
  (options.find? (·.name = name)).map Given.value

/-- Whether every option has been given only once. -/
def onceEach (options : List Given) : Bool := (options.map Given.name).Nodup

/-- The number of bits that a value asks for. -/
def alignment? (value : String) : Option Nat := do
  let n ← Decimal.integer? value.toList
  if 0 ≤ n ∧ n < UInt32.size then some n.toNat else none

/-- The number of results that the options ask for. -/
def count? (options : List Given) (default : Nat) : Option Nat :=
  match valueOf options "n" with
  | none => some default
  | some value => Decimal.naturalBelow? UInt64.size value.toList

/-- The command with a name, its options and its words. -/
def command? (name : String) (args : Arguments) : Option Command :=
  let given := fun option ↦ (valueOf args.options option).isSome
  match name, args.words with
  | "build", [input, output] =>
    match valueOf args.options "alignment" with
    | none => some (.build input output none)
    | some value => (alignment? value).map fun bits ↦ .build input output (some bits)
  | "info", [file] => some (.info file)
  | "verify", [file] => some (.verify file)
  | "lookup", [file, reading] => some (.lookup file reading)
  | "prefix", [file, query] => some (.fronts file query (given "kana-insensitive"))
  | "predict", [file, start] => (count? args.options 10).map fun n ↦ .predict file start n
  | "convert", [file, kana] =>
    (count? args.options 5).map fun n ↦
      .convert file kana n (given "kana-insensitive") (given "predict")
  | "settings-export", [] => some .exportSettings
  | "settings-validate", [file] => some (.validateSettings file)
  | _, _ => none

/-- What a command line asks for. A shared option counts where it stands last. -/
def Invocation.parse? (args : List String) : Option Invocation := do
  let (before, name, rest) ← splitAtCommand? sharedOptions args
  let after ← Arguments.of? (sharedOptions ++ ownOptions name) rest
  guard (onceEach before && onceEach after.options)
  let command ← command? name after
  let shared := fun option ↦ valueOf after.options option <|> valueOf before option
  return ⟨shared "settings", shared "trace-dir", command⟩

end KanaKanji.Tool

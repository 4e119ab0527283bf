import SchemaGraph.Rendering
import SchemaGraph.Text.Cut

/-! The arguments of the program: the name of a command, with options before and after it.

A long option begins with two hyphens and has its value after an equals sign or in the next argument.
Short options are single letters after one hyphen; one that has a value ends the argument, and its value
follows at once, after an equals sign, or in the next argument. -/
namespace SchemaGraph.CommandLine

inductive CommandName
  | generate
  | check
deriving DecidableEq

def CommandName.ofText? : String → Option CommandName
  | "generate" => some .generate
  | "check" => some .check
  | _ => none

inductive Switch
  | config
  | verbose
  | schema
  | wsdl
  | overrides
  | output
  | format
  | help
  | version
deriving DecidableEq

namespace Switch

def known : Option CommandName → List Switch
  | none => [.config, .verbose, .help, .version]
  | some .generate => [.config, .verbose, .schema, .wsdl, .overrides, .output, .format, .help]
  | some .check => [.config, .verbose, .schema, .wsdl, .overrides, .help]

def long : Switch → String
  | .config => "config"
  | .verbose => "verbose"
  | .schema => "schema"
  | .wsdl => "wsdl"
  | .overrides => "overrides"
  | .output => "output"
  | .format => "format"
  | .help => "help"
  | .version => "version"

def short? : Switch → Option Char
  | .config => some 'c'
  | .verbose => some 'v'
  | .schema => some 's'
  | .wsdl => some 'w'
  | .overrides => none
  | .output => some 'o'
  | .format => some 'f'
  | .help => some 'h'
  | .version => some 'V'

def takesValue : Switch → Bool
  | .verbose | .help | .version => false
  | _ => true

end Switch

inductive Interruption
  /-- The arguments are wrong. -/
  | usage
  | help
  | version
deriving DecidableEq

structure Options where
  config : Option String := none
  verbose : Bool := false
  schemas : List String := []
  wsdl : Option String := none
  overrides : Option String := none
  output : Option String := none
  format : Option OutputFormat := none
deriving DecidableEq

def once {α : Type} (old new : Option α) : Except Interruption (Option α) :=
  match old, new with
  | none, some a => .ok (some a)
  | _, _ => .error .usage

def path? (text : String) : Option String := if text.isEmpty then none else some text

def Options.give (o : Options) (s : Switch) (value : String) : Except Interruption Options := do
  match s with
  | .config => return { o with config := ← once o.config (path? value) }
  | .verbose => if o.verbose then throw .usage else return { o with verbose := true }
  | .schema =>
    match path? value with
    | some path => return { o with schemas := o.schemas ++ [path] }
    | none => throw .usage
  | .wsdl => return { o with wsdl := ← once o.wsdl (path? value) }
  | .overrides => return { o with overrides := ← once o.overrides (path? value) }
  | .output => return { o with output := ← once o.output (path? value) }
  | .format => return { o with format := ← once o.format (OutputFormat.ofName? value) }
  | .help => throw .help
  | .version => throw .version

abbrev Step := Except Interruption (Options × Option Switch)

def Options.complete (o : Options) (s : Switch) (value : String) : Step :=
  (·, none) <$> o.give s value

def readLong (command : Option CommandName) (o : Options) (text : List Char) : Step :=
  let (name, value) :=
    match Text.cut '=' text with
    | some (name, value) => (name, some (String.ofList value))
    | none => (text, none)
  match (Switch.known command).find? (·.long.toList = name) with
  | none => throw .usage
  | some s =>
    match s.takesValue, value with
    | true, some value => o.complete s value
    | true, none => return (o, some s)
    | false, none => o.complete s ""
    | false, some _ => throw .usage

def readShort (command : Option CommandName) (o : Options) : List Char → Step
  | [] => return (o, none)
  | c :: r =>
    match (Switch.known command).find? (·.short? = some c) with
    | none => throw .usage
    | some s =>
      if s.takesValue then
        match r with
        | [] => return (o, some s)
        | '=' :: value => o.complete s (String.ofList value)
        | value => o.complete s (String.ofList value)
      else do readShort command (← o.give s "") r

/-- Reads options up to the first argument that is none.  A value cannot begin with a hyphen unless it is
the hyphen alone; after two hyphens nothing can follow. -/
def readOptions (command : Option CommandName) (o : Options) (waiting : Option Switch) :
    List String → Except Interruption (Options × List String)
  | [] => if waiting.isSome then throw .usage else return (o, [])
  | a :: r =>
    match waiting, a.toList with
    | some _, '-' :: _ :: _ => throw .usage
    | some s, _ => do readOptions command (← o.give s a) none r
    | none, ['-', '-'] => if r.isEmpty then return (o, []) else throw .usage
    | none, '-' :: '-' :: text => do
      let (o, waiting) ← readLong command o text
      readOptions command o waiting r
    | none, '-' :: c :: text => do
      let (o, waiting) ← readShort command o (c :: text)
      readOptions command o waiting r
    | none, _ => return (o, a :: r)

structure Invocation where
  command : CommandName
  /-- The file with the settings. -/
  config : String
  options : Options

/-- Reads all arguments.  The settings file can be named in both places, and then the one after the
command counts. -/
def Invocation.ofArguments (arguments : List String) : Except Interruption Invocation := do
  let (before, rest) ← readOptions none {} none arguments
  match rest with
  | [] => throw .usage
  | "help" :: topics =>
    match topics with
    | [] | ["help"] | ["generate"] | ["check"] => throw .help
    | _ => throw .usage
  | name :: rest =>
    match CommandName.ofText? name with
    | none => throw .usage
    | some command =>
      let (options, rest) ← readOptions (some command) {} none rest
      if !rest.isEmpty then throw .usage
      return ⟨command, (options.config.or before.config).getD "xsdgraph.yaml", options⟩

end SchemaGraph.CommandLine

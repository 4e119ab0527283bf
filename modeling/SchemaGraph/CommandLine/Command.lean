import SchemaGraph.CommandLine.Arguments
import SchemaGraph.Project.Build

/-! The commands of the program.  Paths among the arguments are relative to the working directory. -/
namespace SchemaGraph

def renderToFile {m : Type → Type} [Monad m] [FileAccess m] (g : TypeGraph) (format : OutputFormat)
    (options : ArtifactOptions) (path : String) : ExceptT RenderError m Unit := do
  let text ← ExceptT.mk (pure (render g format options))
  if !(← FileAccess.write path text) then throw .unwritable

namespace CommandLine

inductive Failure
  | config (error : ConfigError)
  | render (error : RenderError)
deriving DecidableEq

def Failure.message : Failure → String
  | .config e => e.message
  | .render e => e.message

structure Report where
  exitCode : Nat
  output : String := ""
  /-- What goes to the error stream. -/
  complaint : String := ""
deriving DecidableEq

def versionText : String := "xsdgraph 0.1.0\n"

def helpText : String :=
  String.join ([
    "Compile XSD/WSDL service definitions into a JSON type graph",
    "",
    "Usage: xsdgraph [OPTIONS] <COMMAND>",
    "",
    "Commands:",
    "  generate  Compile the graph and write it out",
    "  check     Compile the graph and report diagnostics without writing it",
    "  help      Print this message",
    "",
    "Options:",
    "  -c, --config <CONFIG>        Path to configuration file [default: xsdgraph.yaml]",
    "  -v, --verbose                Accepted; changes nothing in the output",
    "  -h, --help                   Print help",
    "  -V, --version                Print version",
    "",
    "Options of both commands:",
    "  -s, --schema <SCHEMA>        Schema document, in load order (repeatable)",
    "  -w, --wsdl <WSDL>            WSDL document",
    "      --overrides <OVERRIDES>  Override table YAML file",
    "",
    "Options of generate:",
    "  -o, --output <OUTPUT>        Output file path (standard output when absent)",
    "  -f, --format <FORMAT>        Output format: json, yaml or rust"].map (· ++ "\n"))

def Interruption.report : Interruption → Report
  | .usage => ⟨2, "", "error: invalid arguments; try '--help'\n"⟩
  | .help => ⟨0, helpText, ""⟩
  | .version => ⟨0, versionText, ""⟩

namespace Invocation

variable {m : Type → Type} [Monad m] [FileAccess m] (i : Invocation)

/-- The settings with the options in place of what the file says.  Where there is no file the schemas
among the options suffice. -/
def settings : Build m Config := do
  let c ←
    if (← FileAccess.occurs i.config) || i.options.schemas.isEmpty then Config.load i.config
    else pure (Config.empty (← FileAccess.workingDirectory))
  let absolute := Path.absolute (← FileAccess.workingDirectory)
  return { c with
    schemas :=
      if i.options.schemas.isEmpty then c.schemas else i.options.schemas.map absolute
    wsdl := (i.options.wsdl.map absolute).or c.wsdl
    overrides := (i.options.overrides.map fun path => .file (absolute path)).or c.overrides
    output :=
      ⟨(i.options.output.map absolute).or c.output.path, i.options.format.getD c.output.format⟩ }

def generate (c : Config) (g : TypeGraph) : ExceptT Failure m String := do
  match c.outputPath with
  | some path =>
    (renderToFile g c.output.format c.artifactOptions path).adapt .render
    return ""
  | none => ExceptT.mk (pure ((render g c.output.format c.artifactOptions).mapError .render))

def summary (g : TypeGraph) : String :=
  String.join (g.diagnostics.map fun d => "warning: " ++ d.text ++ "\n")
    ++ s!"{g.types.size} types, {g.elements.size} elements, {g.operations.size} operations, "
    ++ s!"{g.diagnostics.length} diagnostics\n"

def output : ExceptT Failure m String := do
  let c ← (i.settings).adapt .config
  let g ← c.graph.adapt .config
  match i.command with
  | .generate => generate c g
  | .check => return summary g

end Invocation

def run {m : Type → Type} [Monad m] [FileAccess m] (arguments : List String) : m Report := do
  match Invocation.ofArguments arguments with
  | .error e => return e.report
  | .ok i =>
    match ← i.output.run with
    | .ok text => return ⟨0, text, ""⟩
    | .error e => return ⟨1, "", "Error: " ++ e.message ++ "\n"⟩

end CommandLine

end SchemaGraph
